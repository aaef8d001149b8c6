import Iqemu64.A2xDelivery
import Iqemu64.DyDelivery

/-!
# The whole guest-to-host entry

The code that `abiA2xEntryTranslation` emits makes room for the result and the stack arguments and
then runs the argument loop. It delivers all arguments exactly when the vector loads are aligned and
every argument is read with the strides it is laid out with.
-/

namespace Iqemu64
open ByteMemory X64 StepChain List Option

def A2xStack (rsp frame a : ℕ) : Prop := rsp ≤ a + bigEnoughSretSize + frame + 24 ∧ a < rsp + 16

section Ready
variable (L : EnvLayout) (aaInfo : ABIFnInfo AReg) (xxInfo : ABIFnInfo XReg) (s : State)

def a2xEnv : ℕ := (s.gpr .rbx).toNat

def a2xSp : ℕ := s.mem.loadWord (a2xEnv s + spOffset) 8

/-- A guest call is about to be translated: the CPU state and the guest stack are aligned, the host
stack has room, and the host stack, the CPU state and the guest's arguments do not overlap. -/
structure A2xReady : Prop where
  env_aligned : a2xEnv s % 16 = 0
  sp_aligned : a2xSp s % 16 = 0
  sp_top : a2xSp s + aaInfo.bytes < 2 ^ 64
  room : bigEnoughSretSize + ffiAlign xxInfo.bytes 16 + 24 ≤ (s.gpr .rsp).toNat
  state_apart : ∀ o < L.size,
    ¬ A2xStack (s.gpr .rsp).toNat (ffiAlign xxInfo.bytes 16) (a2xEnv s + o)
  stack_apart : ∀ o < aaInfo.bytes,
    ¬ A2xStack (s.gpr .rsp).toNat (ffiAlign xxInfo.bytes 16) (a2xSp s + o) ∧
      ¬ (a2xEnv s ≤ a2xSp s + o ∧ a2xSp s + o < a2xEnv s + L.size)
  pointee : ∀ a ∈ aaInfo.ainfo, a.indirect = true → ∀ k < a.size,
    ¬ A2xStack (s.gpr .rsp).toNat (ffiAlign xxInfo.bytes 16)
      (a.guestAddr L (a2xEnv s) (a2xSp s) s.mem k) ∧
      ¬ (a2xEnv s ≤ a.guestAddr L (a2xEnv s) (a2xSp s) s.mem k ∧
        a.guestAddr L (a2xEnv s) (a2xSp s) s.mem k < a2xEnv s + L.size)

/-- The emitted code runs to its end and every x86-64 place holds its argument. -/
def A2xDelivers (E : BridgeExternals) : Prop :=
  ∃ code s', abiA2xEntryTranslation L aaInfo xxInfo = some code ∧ run E code s = some s' ∧
    ∀ (i : ℕ) a x, aaInfo.ainfo[i]? = some a → xxInfo.ainfo[i]? = some x →
      HostHolds (a2xHostView s') x (a.guestByte L (a2xEnv s) (a2xSp s) s.mem)

end Ready

section Entry
variable {L : EnvLayout} {σ : Signature} {s : State}

/-- Only the stack pointer's word and the words with pointers matter for readiness. -/
theorem A2xReady.setMem (h : A2xReady L σ.aaInfo σ.xxInfo s) {m : Mem}
    (hsp : ∀ k < 8, m (a2xEnv s + spOffset + k) = s.mem (a2xEnv s + spOffset + k))
    (hslot : ∀ a ∈ σ.aaInfo.ainfo, a.indirect = true → ∀ k < 8,
      m (a.slotAddr L (a2xEnv s) (a2xSp s) + k) = s.mem (a.slotAddr L (a2xEnv s) (a2xSp s) + k)) :
    A2xReady L σ.aaInfo σ.xxInfo (s.setMem m) ∧ a2xSp (s.setMem m) = a2xSp s := by
  have hsame : a2xSp (s.setMem m) = a2xSp s := Mem.loadWord_congr _ _ _ _ hsp
  refine ⟨⟨h.env_aligned, ?_, ?_, h.room, h.state_apart, ?_, fun a ha hind => ?_⟩, hsame⟩
  · rw [hsame]
    exact h.sp_aligned
  · rw [hsame]
    exact h.sp_top
  · rw [hsame]
    exact h.stack_apart
  · rw [hsame, show (s.setMem m).mem = m from rfl,
      show a2xEnv (s.setMem m) = a2xEnv s from rfl, guestAddr_congr (hslot a ha)]
    exact h.pointee a ha hind

/-- The part before the argument loop lowers the stack pointer and sets at most `rdi`. -/
theorem run_a2xRet (E : BridgeExternals) (aaRet : ABIArgInfo AReg) (r : XxRet) (s : State) :
    ∃ code, a2xRet aaRet (xxRetInfo r) = some code ∧ ∃ s₁ space, run E code s = some s₁ ∧
      space ≤ bigEnoughSretSize ∧ s₁.mem = s.mem ∧ s₁.gpr .rbx = s.gpr .rbx ∧
      s₁.gpr .rsp = s.gpr .rsp + BitVec.ofInt 64 (-space) := by
  by_cases hr : (xxRetInfo r).indirect = true
  · have hreg : (xxRetInfo r).teGetReg 0 = some .rdi := by
      cases r <;> first | rfl | exact absurd hr (by decide)
    cases hind : aaRet.indirect with
    | false =>
      simp only [a2xRet, hr, hind, hreg]
      exact ⟨_, rfl, _, bigEnoughSretSize, rfl, le_rfl, rfl, rfl, rfl⟩
    | true =>
      simp only [a2xRet, hr, hind, hreg]
      refine ⟨_, rfl, _, 0, rfl, Nat.zero_le _, rfl, rfl, ?_⟩
      exact (BitVec.add_zero _).symm
  · simp only [a2xRet, hr]
    exact ⟨_, rfl, s, 0, rfl, Nat.zero_le _, rfl, rfl, (BitVec.add_zero _).symm⟩

/-- No argument of a flat signature is a callback, a block or a struct with function pointers. -/
theorem a2xPrepare_places (L : EnvLayout) (σ : Signature) :
    (σ.aaInfo.ainfo.take σ.xxInfo.ainfo.length).zipIdx.flatMap (fun (aa, i) => a2xPrepare L i aa) =
      [] := by
  refine flatMap_eq_nil_iff.mpr fun q hq => ?_
  obtain ⟨a, i⟩ := q
  have ha : a ∈ σ.aaInfo.ainfo := mem_of_mem_take (mem_of_getElem?
    (mem_zipIdx_iff_getElem?.mp hq))
  obtain ⟨p, hp, rfl⟩ := mem_map.mp ha
  obtain ⟨c, c', hlay⟩ := σ.laid_of_mem hp
  obtain ⟨t, al, -, haa, -⟩ := hlay.place
  generalize p.1 = a at haa
  cases haa <;> rfl

theorem A2xReady.stack_of_frame (h : A2xReady L σ.aaInfo σ.xxInfo s) {space : ℕ}
    (hspace : space ≤ bigEnoughSretSize) {a : ℕ}
    (hf : A2xFrame ((s.gpr .rsp).toNat - space - ffiAlign σ.xxInfo.bytes 16)
      (ffiAlign σ.xxInfo.bytes 16) a) :
    A2xStack (s.gpr .rsp).toNat (ffiAlign σ.xxInfo.bytes 16) a := by
  have := h.room
  unfold A2xFrame at hf
  unfold A2xStack
  omega

def A2xReady.site (h : A2xReady L σ.aaInfo σ.xxInfo s) {space : ℕ} (hspace : space ≤ bigEnoughSretSize) :
    A2xSite L where
  env := a2xEnv s
  sp := a2xSp s
  rsp := (s.gpr .rsp).toNat - space - ffiAlign σ.xxInfo.bytes 16
  frame := ffiAlign σ.xxInfo.bytes 16
  aaBytes := σ.aaInfo.bytes
  env_aligned := h.env_aligned
  sp_aligned := h.sp_aligned
  room := by
    have := h.room
    omega
  top := by
    have := h.room
    have := (s.gpr .rsp).isLt
    omega
  sp_top := h.sp_top
  state_apart o ho hf := h.state_apart o ho (h.stack_of_frame hspace hf)
  stack_apart o ho := ⟨fun hf => (h.stack_apart o ho).1 (h.stack_of_frame hspace hf),
    (h.stack_apart o ho).2⟩

theorem A2xReady.pointee_site (h : A2xReady L σ.aaInfo σ.xxInfo s) {space : ℕ}
    (hspace : space ≤ bigEnoughSretSize) : ∀ p ∈ σ.places, (h.site hspace).Pointee s.mem p.1 := by
  intro p hp hind k hk
  obtain ⟨hf, hs⟩ := h.pointee p.1 (mem_map_of_mem hp) hind k hk
  exact ⟨fun hf' => hf (h.stack_of_frame hspace hf'), hs⟩

/-- What the whole code does: it exists, it faults exactly at a vector load that is not aligned, and
otherwise fills each place with what it reads for the argument. -/
theorem A2xReady.run_spec (h : A2xReady L σ.aaInfo σ.xxInfo s) (E : BridgeExternals) :
    ∃ code, abiA2xEntryTranslation L σ.aaInfo σ.xxInfo = some code ∧
      (run E code s ≠ none ↔ ∀ p ∈ σ.places, VectorsAligned p.1 p.2) ∧
      ∀ s', run E code s = some s' → ∀ p ∈ σ.places, HostHolds (a2xHostView s') p.2
        fun k => s.mem (a2xSource L (a2xEnv s) (a2xSp s) s.mem p.1 p.2 k) := by
  obtain ⟨ret, hret, s₁, space, hrun₁, hspace, hmem, hrbx, hrsp⟩ :=
    run_a2xRet E σ.aaInfo.rinfo σ.ret.xxRet s
  set frame := ffiAlign σ.xxInfo.bytes 16 with hframe
  let s₂ := s₁.setGpr .rsp (s₁.gpr .rsp + BitVec.ofInt 64 (-frame))
  let S := h.site hspace
  have hroom := h.room
  have hinv : A2xInv S s.mem ({}, σ.xxStart) s₂ := by
    refine ⟨?_, ?_, rfl, fun a _ _ => ?_⟩
    · simp only [s₂, State.setGpr_gpr, reduceCtorEq, if_false, hrbx]
      rfl
    · simp only [s₂, State.setGpr_gpr_same, hrsp]
      rw [toNat_add_ofInt_neg, toNat_add_ofInt_neg _ (by omega)]
      · rfl
      · rw [toNat_add_ofInt_neg _ (by omega)]
        omega
    · simp only [s₂, State.setGpr_mem, hmem]
  have hchain : Chain (a2xSteps E S s.mem).Lay ({}, σ.xxStart) σ.places
      (aaFinal σ.nfixed σ.args 0 {}, xxFinal σ.args σ.xxStart) := by
    have hxx : σ.xxInfo.bytes ≤ frame := by
      rw [hframe, ffiAlign_sixteen]
      omega
    exact (σ.chain (fun _ _ => trivial) hxx).and (h.pointee_site hspace)
  obtain ⟨args, hargs, hloop⟩ := a2xArgs_eq_run hchain hinv
  have hcode : abiA2xEntryTranslation L σ.aaInfo σ.xxInfo =
      some (ret ++ .addi .rsp (-frame) :: (args ++ [.movi .rax σ.xxInfo.ssecount])) := by
    unfold abiA2xEntryTranslation
    change (a2xRet σ.aaInfo.rinfo (xxRetInfo σ.ret.xxRet)).bind _ = _
    rw [hret, bind_some]
    change (a2xArgs L (σ.places.map Prod.fst) (σ.places.map Prod.snd)).map _ = _
    rw [hargs, map_some, a2xPrepare_places, nil_append]
  have hrun : run E (ret ++ .addi .rsp (-frame) :: (args ++ [.movi .rax σ.xxInfo.ssecount])) s =
      ((a2xSteps E S s.mem).run σ.places s₂).map fun u =>
        u.setGpr .rax (BitVec.ofNat 64 σ.xxInfo.ssecount) := by
    rw [run_append_some E hrun₁, run_cons]
    change run E (args ++ _) s₂ = _
    rw [run_append, hloop]
    cases (a2xSteps E S s.mem).run σ.places s₂ <;> rfl
  refine ⟨_, hcode, ?_, fun s' hs' p hp => ?_⟩
  · rw [hrun, ne_eq, map_eq_none_iff, ← ne_eq, a2xRun_ne_none_iff hchain hinv]
    refine forall₂_congr fun p hp => ?_
    obtain ⟨c, c', hlay⟩ := σ.laid_of_mem hp
    obtain ⟨t, al, -, ha, hx, -⟩ := hlay.place
    exact piecesAligned_iff ha hx
  · rw [hrun] at hs'
    obtain ⟨u, hu, rfl⟩ := map_eq_some_iff.mp hs'
    obtain ⟨c, c', hlay⟩ := σ.laid_of_mem hp
    obtain ⟨t, al, -, ha, hx, -⟩ := hlay.place
    -- the final `rax` is no argument register
    have hagree : AgreeBelow c'.2 (a2xHostView u)
        (a2xHostView (u.setGpr .rax (BitVec.ofNat 64 σ.xxInfo.ssecount))) := by
      refine agreeBelow_of_stack hlay.inRange_after.xxGpr (fun r hr _ => ?_) rfl fun _ _ => rfl
      exact State.setGpr_gpr_ne u _ hr
    exact HostHolds.of_agreeBelow hx hagree (a2xRun_hostHolds hchain hinv hu hp)

/-- A plain byte of an argument is neither in the guest stack pointer's word nor in a word that holds
a pointer. -/
theorem A2xReady.plainByte_ne (h : A2xReady L σ.aaInfo σ.xxInfo s) {p : Placement}
    (hp : p ∈ σ.places) {al : AaAlloc} {addr : ℕ} (hind : p.1.indirect = false)
    (hplain : PlainByte L (a2xEnv s) (a2xSp s) al p.1 addr) :
    (∀ o < 264, addr ≠ a2xEnv s + o) ∧ ∀ q ∈ σ.places, q.1.indirect = true → ∀ k < 8,
      addr ≠ q.1.slotAddr L (a2xEnv s) (a2xSp s) + k := by
  have hz := L.zregs_ge
  obtain ⟨c, c', hlay⟩ := σ.laid_of_mem hp
  have hlow : ∀ o < 264, addr ≠ a2xEnv s + o := by
    intro o ho heq
    rcases hplain with ⟨v, -, -, k, -, rfl⟩ | ⟨offset, info, hloc, k, hk, rfl⟩
    · omega
    · have hend := (hlay.stack hloc).2.trans hlay.aaFits
      rw [ABIArgInfo.stackExtent, hind, if_neg Bool.false_ne_true] at hend
      refine (h.stack_apart (offset + k) (by omega)).2 ?_
      unfold EnvLayout.size
      omega
  refine ⟨hlow, fun q hq hqind k hk heq => ?_⟩
  have hne : p ≠ q := by
    rintro rfl
    rw [hind] at hqind
    cases hqind
  have hdisj := σ.stack_disjoint hp hq hne
  obtain ⟨d, d', hqlay⟩ := σ.laid_of_mem hq
  obtain ⟨t, bl, -, ha, -, -⟩ := hqlay.place
  have hqend := fun offset info (hloc : q.1.loc = .mem offset info) =>
    (hqlay.stack hloc).2.trans hqlay.aaFits
  obtain ⟨b, y⟩ := q
  simp only at ha hqind heq hqend
  cases ha with
  | pointer hv h16 hfit =>
    apply hlow (8 * d.1.gprcount + k) (by omega)
    rw [heq, ← Nat.add_assoc]
    rfl
  | stackPointer hv h16 =>
    have hq8 := hqend _ _ rfl
    change addr = a2xSp s + _ + k at heq
    simp only [ABIArgInfo.stackExtent, if_true] at hq8
    rcases hplain with ⟨v, -, hv8, i, hi, rfl⟩ | ⟨offset, info, hloc, i, hi, rfl⟩
    · refine (h.stack_apart (d.1.memOffset t.alignment + k) (by omega)).2 ?_
      unfold EnvLayout.size
      omega
    · have := hdisj _ _ _ _ hloc rfl
      simp only [ABIArgInfo.stackExtent, hind, Bool.false_eq_true, if_false, if_true] at this
      omega
  | _ => cases hqind

/-- An argument that is read with the wrong strides: with one byte changed it is read wrongly. -/
theorem A2xReady.exists_misread (h : A2xReady L σ.aaInfo σ.xxInfo s) {p : Placement}
    (hp : p ∈ σ.places) (hns : ¬ a2xStrided p.1 p.2) :
    ∃ m, A2xReady L σ.aaInfo σ.xxInfo (s.setMem m) ∧ a2xSp (s.setMem m) = a2xSp s ∧
      ∃ k < p.1.size, m (a2xSource L (a2xEnv s) (a2xSp s) m p.1 p.2 k) ≠
        p.1.guestByte L (a2xEnv s) (a2xSp s) m k := by
  obtain ⟨c, c', hlay⟩ := σ.laid_of_mem hp
  obtain ⟨t, al, -, ha, hx, -⟩ := hlay.place
  obtain ⟨k, hk, hne⟩ : ∃ k < t.size, a2xSource L (a2xEnv s) (a2xSp s) s.mem p.1 p.2 k ≠
      p.1.guestAddr L (a2xEnv s) (a2xSp s) s.mem k := by
    by_contra hall
    push Not at hall
    exact hns ((a2xStrided_iff ha hx).mpr hall)
  obtain ⟨hind, hplain⟩ := guestAddr_plain (L := L) (m := s.mem) ha hx hns hk
  obtain ⟨hlow, hslots⟩ := h.plainByte_ne hp hind hplain
  set src := a2xSource L (a2xEnv s) (a2xSp s) s.mem p.1 p.2 k with hsrc
  set dst := p.1.guestAddr L (a2xEnv s) (a2xSp s) s.mem k with hdst
  let m := Function.update s.mem dst (s.mem src + 1)
  have hm : ∀ a, dst ≠ a → m a = s.mem a := fun a ha => Function.update_of_ne ha.symm _ _
  obtain ⟨hready, hsp⟩ := h.setMem (m := m)
    (fun i hi => hm _ (by rw [Nat.add_assoc]; exact hlow _ (by unfold spOffset; omega)))
    (fun a ha hai i hi => by
      obtain ⟨q, hq, rfl⟩ := mem_map.mp ha
      exact hm _ (hslots q hq hai i hi))
  have hno : p.1.indirect = true → ∀ i < 8, m (p.1.slotAddr L (a2xEnv s) (a2xSp s) + i) =
      s.mem (p.1.slotAddr L (a2xEnv s) (a2xSp s) + i) := by
    rw [hind]
    intro h
    cases h
  refine ⟨m, hready, hsp, k, by rw [ha.size_eq]; exact hk, ?_⟩
  rw [ABIArgInfo.guestByte, guestAddr_congr hno, a2xSource_congr hno, ← hsrc, ← hdst, hm src hne.symm]
  change s.mem src ≠ Function.update s.mem dst (s.mem src + 1) dst
  rw [Function.update_self]
  grind

end Entry

/-- An integer, then a struct of a double and an integer, which starts in `x1`. -/
def oddSignature : Signature where
  ret := .void
  args := [.scalar .sint64, .struct .double [.sint64]]
  nfixed := 0
  nfixed_le := Nat.zero_le _

/-- Memory and registers are zero except for the two pointers that the code starts from. -/
def idleState : State where
  gpr r := if r = .rbx then 4096 else if r = .rsp then 65536 else 0
  xmm _ _ := 0
  mem _ := 0

def idleExternals : BridgeExternals where
  ext _ s := s
  addr _ := 0

/-- Without stack arguments and with small structs behind pointers, `idleState` is a call site. -/
theorem a2xReady_idle {aaInfo : ABIFnInfo AReg} {xxInfo : ABIFnInfo XReg} (haa : aaInfo.bytes = 0)
    (hxx : xxInfo.bytes ≤ 32) (hsize : ∀ a ∈ aaInfo.ainfo, a.size ≤ 32) :
    A2xReady .least aaInfo xxInfo idleState := by
  have hsp : a2xSp idleState = 0 := rfl
  have henv : a2xEnv idleState = 4096 := rfl
  have hrsp : (idleState.gpr .rsp).toNat = 65536 := rfl
  have hL : EnvLayout.least.size = 8464 := rfl
  have hstack : ∀ a < 16384, ¬ A2xStack (idleState.gpr .rsp).toNat (ffiAlign xxInfo.bytes 16) a := by
    intro a ha
    rw [hrsp, ffiAlign_sixteen, A2xStack, bigEnoughSretSize]
    omega
  refine ⟨rfl, rfl, ?_, ?_, fun o ho => ?_, fun o ho => ?_, fun a ha hind k hk => ?_⟩
  · rw [haa, hsp]
    norm_num
  · rw [hrsp, ffiAlign_sixteen, bigEnoughSretSize]
    omega
  · exact hstack _ (by omega)
  · rw [haa] at ho
    omega
  · -- every pointer is null
    have haddr : a.guestAddr .least (a2xEnv idleState) (a2xSp idleState) idleState.mem k = k := by
      rw [guestAddr_pointer hind, show idleState.mem = fun _ => 0 from rfl, Mem.loadWord_zero,
        Nat.zero_add]
    have := hsize a ha
    rw [haddr]
    exact ⟨hstack k (by omega), by omega⟩

theorem dySeparate_idle : DySeparate .least (a2xEnv idleState) 131072 (a2xSp idleState) mixedSignature.aaInfo
    mixedSignature.xxInfo idleState.mem := by
  have hsize : EnvLayout.least.size = 8464 := rfl
  have henv : a2xEnv idleState = 4096 := rfl
  have haa : mixedSignature.aaInfo.bytes = 0 := by decide
  refine ⟨fun o ho h => ?_, fun o ho => ?_, fun a ha hind k hk h => ?_⟩
  · have := h.1
    omega
  · omega
  · have hptr : a.guestAddr .least (a2xEnv idleState) (a2xSp idleState) idleState.mem k = k := by
      rw [guestAddr_pointer hind]
      exact (congrArg (· + k) (Mem.loadWord_zero _ _)).trans (Nat.zero_add k)
    have hle : ∀ a ∈ mixedSignature.aaInfo.ainfo, a.size ≤ 24 := by decide
    have := hle a ha
    have := h.1
    omega

end Iqemu64
