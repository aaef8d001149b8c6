import Iqemu64.A2xEntry
import Iqemu64.MemMoves

/-!
# Running the parts of the guest-to-host code

Each building block of an argument's code is run once and for all: loading a list of registers,
storing a list of stack slots, and the block copy between pushes and pops.
-/

namespace Iqemu64
open ByteMemory X64 List Option State Mem

def LocInfo.extend (info : LocInfo) (v : BitVec 64) : BitVec 64 :=
  match info.widening with
  | none => v
  | some (signed, width) => widen signed (8 * width) v

theorem run_tcgExtend (E : BridgeExternals) (info : LocInfo) (code : BridgeCode) (s : State) :
    run E (tcgExtendArgInRaxByLocInfo info ++ code) s =
      run E code (s.setGpr .rax (info.extend (s.gpr .rax))) := by
  cases info <;> simp [tcgExtendArgInRaxByLocInfo, run_cons, Insn.step, LocInfo.extend,
    LocInfo.widening]

section Values
variable {info : LocInfo} {m : Mem} {a : ℕ}

theorem LocInfo.byteAt_extend_of_none (h : info.widening = none) {k : ℕ} (hk : k < 8) :
    byteAt (info.extend (BitVec.ofNat 64 (m.loadWord a 8))).toNat k = m (a + k) := by
  rw [LocInfo.extend, h]
  exact byteAt_ofNat_loadWord m a 8 k le_rfl hk

theorem LocInfo.byteAt_extend {signed : Bool} {width : ℕ} (h : info.widening = some (signed, width))
    (hw : width = 1 ∨ width = 2) {k : ℕ} (hk : k < 4) :
    byteAt (info.extend (BitVec.ofNat 64 (m.loadWord a 8))).toNat k =
      extendBytes signed width (fun i => m (a + i)) k := by
  rw [LocInfo.extend, h]
  change byteAt (widen signed (8 * width) _).toNat k = _
  rw [Move.byteAt_widen signed hw _ k hk]
  apply extendBytes_congr signed width _ _ (by omega)
  intro i hi
  exact byteAt_ofNat_loadWord m a 8 i le_rfl (by omega)

end Values

section Pieces
variable (E : BridgeExternals)

def pieceByte (s : State) (base : Gpr) (q : (XReg × LocInfo) × ℕ) (k : ℕ) : UInt8 :=
  match x64Enum2Reg q.1.1 with
  | .inl _ => byteAt (q.1.2.extend (BitVec.ofNat 64 (s.mem.loadWord (s.ea base q.2) 8))).toNat k
  | .inr _ => s.mem (s.ea base q.2 + k)

variable {base : Gpr} {q : (XReg × LocInfo) × ℕ} {s : State}

theorem run_a2xPiece_gpr {r : Gpr}
    (h : x64Enum2Reg q.1.1 = .inl r) (code : BridgeCode) :
    run E (a2xPiece base q ++ code) s =
      let v := q.1.2.extend (BitVec.ofNat 64 (s.mem.loadWord (s.ea base q.2) 8))
      run E code (((s.setGpr .rax (BitVec.ofNat 64 (s.mem.loadWord (s.ea base q.2) 8))).setGpr
        .rax v).setGpr r v) := by
  simp only [a2xPiece, h, cons_append, run_cons, Insn.step, bind_some, append_assoc,
    run_tcgExtend, setGpr_gpr_same, nil_append]

theorem run_a2xPiece_xmm {n : ℕ}
    (h : x64Enum2Reg q.1.1 = .inr n) (code : BridgeCode) :
    run E (a2xPiece base q ++ code) s =
      if s.ea base q.2 % 16 = 0 then run E code (s.setXmm n fun k => s.mem (s.ea base q.2 + k))
      else none := by
  simp only [a2xPiece, h, cons_append, nil_append, run_cons, Insn.step]
  split_ifs <;> rfl

structure Loaded (base : Gpr) (l : List ((XReg × LocInfo) × ℕ)) (s s' : State) : Prop where
  mem : s'.mem = s.mem
  gpr : ∀ r, r ≠ .rax → (∀ q ∈ l, x64Enum2Reg q.1.1 ≠ .inl r) → s'.gpr r = s.gpr r
  xmm : ∀ n, (∀ q ∈ l, x64Enum2Reg q.1.1 ≠ .inr n) → s'.xmm n = s.xmm n
  reg : ∀ q ∈ l, ∀ k < 8, hostReg s' q.1.1 k = pieceByte s base q k

structure Loadable (base : Gpr) (l : List ((XReg × LocInfo) × ℕ)) : Prop where
  base_ne : base ≠ .rax
  ne_base : ∀ q ∈ l, x64Enum2Reg q.1.1 ≠ .inl base
  ne_rax : ∀ q ∈ l, x64Enum2Reg q.1.1 ≠ .inl .rax
  distinct : l.Pairwise fun p q => x64Enum2Reg p.1.1 ≠ x64Enum2Reg q.1.1

variable {l : List ((XReg × LocInfo) × ℕ)}

theorem Loadable.tail
    (h : Loadable base (q :: l)) : Loadable base l :=
  ⟨h.base_ne, fun p hp => h.ne_base p (mem_cons_of_mem q hp),
    fun p hp => h.ne_rax p (mem_cons_of_mem q hp), (pairwise_cons.mp h.distinct).2⟩

variable {s' : State}

/-- Loading one register first: what is loaded after it reads the same memory. -/
theorem Loaded.cons
    {s₁ : State} (h : Loadable base (q :: l)) (h₁ : Loaded base [q] s s₁)
    (h₂ : Loaded base l s₁ s') : Loaded base (q :: l) s s' := by
  have hbase : s₁.gpr base = s.gpr base :=
    h₁.gpr base h.base_ne fun p hp => h.ne_base p (by simp_all)
  have hpiece : ∀ p k, pieceByte s₁ base p k = pieceByte s base p k := by
    intro p k
    simp only [pieceByte, ea, h₁.mem, hbase]
  refine ⟨h₂.mem.trans h₁.mem, fun r hr hne => ?_, fun n hne => ?_, fun p hp k hk => ?_⟩
  · rw [h₂.gpr r hr fun p hp => hne p (mem_cons_of_mem q hp)]
    exact h₁.gpr r hr fun p hp => hne p (by simp_all)
  · rw [h₂.xmm n fun p hp => hne p (mem_cons_of_mem q hp)]
    exact h₁.xmm n fun p hp => hne p (by simp_all)
  · rcases mem_cons.mp hp with rfl | hp
    · -- the later registers differ from this one
      rw [← h₁.reg p (mem_singleton.mpr rfl) k hk]
      have hne := (pairwise_cons.mp h.distinct).1
      unfold hostReg
      cases hx : x64Enum2Reg p.1.1 with
      | inl r =>
        have hr : r ≠ .rax := fun h' => h.ne_rax p hp (by rw [hx, h'])
        simp only [gprByte]
        rw [h₂.gpr r hr fun q' hq' => fun h' => hne q' hq' (by rw [hx, h'])]
      | inr n =>
        simp only
        rw [h₂.xmm n fun q' hq' => fun h' => hne q' hq' (by rw [hx, h'])]
    · rw [h₂.reg p hp k hk, hpiece]

theorem loaded_single
    (h : Loadable base [q]) (hrun : run E (a2xPiece base q) s = some s') : Loaded base [q] s s' := by
  have hne := h.ne_rax q (mem_singleton.mpr rfl)
  cases hx : x64Enum2Reg q.1.1 with
  | inl r =>
    have hr : r ≠ .rax := fun h' => hne (by rw [hx, h'])
    rw [← append_nil (a2xPiece base q), run_a2xPiece_gpr E hx] at hrun
    cases hrun
    refine ⟨rfl, fun p hp hall => ?_, fun n _ => rfl, fun p hp k _ => ?_⟩
    · have : p ≠ r := fun h' => hall q (mem_singleton.mpr rfl) (by rw [hx, h'])
      simp [this, hp]
    · obtain rfl := mem_singleton.mp hp
      simp [hostReg, pieceByte, hx, gprByte]
  | inr n =>
    rw [← append_nil (a2xPiece base q), run_a2xPiece_xmm E hx] at hrun
    split_ifs at hrun with ha
    cases hrun
    refine ⟨rfl, fun p _ _ => rfl, fun k hall => ?_, fun p hp k _ => ?_⟩
    · have : k ≠ n := fun h' => hall q (mem_singleton.mpr rfl) (by rw [hx, h'])
      simp [this]
    · obtain rfl := mem_singleton.mp hp
      simp [hostReg, pieceByte, hx]

theorem run_pieces
    (h : Loadable base l) (hrun : run E (l.flatMap (a2xPiece base)) s = some s') :
    Loaded base l s s' := by
  induction l generalizing s with
  | nil =>
    cases hrun
    exact ⟨rfl, fun _ _ _ => rfl, fun _ _ => rfl, fun q hq => absurd hq (by simp)⟩
  | cons q l ih =>
    rw [flatMap_cons, run_append] at hrun
    obtain ⟨s₁, hs₁, hrest⟩ := bind_eq_some_iff.mp hrun
    have hq : Loadable base [q] := ⟨h.base_ne, fun p hp => h.ne_base p (by simp_all),
      fun p hp => h.ne_rax p (by simp_all), pairwise_singleton _ _⟩
    exact Loaded.cons h (loaded_single E hq hs₁) (ih h.tail hrest)

/-- Registers are loaded exactly when the vector ones come from aligned addresses. -/
theorem run_pieces_ne_none_iff
    (h : Loadable base l) : run E (l.flatMap (a2xPiece base)) s ≠ none ↔
      ∀ q ∈ l, q.1.1.isXmm = true → s.ea base q.2 % 16 = 0 := by
  induction l generalizing s with
  | nil => simp
  | cons q l ih =>
    have hq : Loadable base [q] := ⟨h.base_ne, fun p hp => h.ne_base p (by simp_all),
      fun p hp => h.ne_rax p (by simp_all), pairwise_singleton _ _⟩
    have hone : run E (a2xPiece base q) s ≠ none ↔ (q.1.1.isXmm = true → s.ea base q.2 % 16 = 0) := by
      rw [← append_nil (a2xPiece base q)]
      cases hx : x64Enum2Reg q.1.1 with
      | inl r =>
        rw [run_a2xPiece_gpr E hx, isXmm_eq_isRight, hx]
        simp
      | inr n =>
        rw [run_a2xPiece_xmm E hx, isXmm_eq_isRight, hx]
        simp
    rw [flatMap_cons, run_append, forall_mem_cons, ← hone]
    cases hs₁ : run E (a2xPiece base q) s with
    | none => simp
    | some s₁ =>
      have hbase : s₁.gpr base = s.gpr base := (loaded_single E hq hs₁).gpr base h.base_ne
        fun p hp => h.ne_base p (by simp_all)
      have := ih (s := s₁) h.tail
      simp only [ea, hbase] at this
      simpa [ea] using this

end Pieces

section Slots
variable (E : BridgeExternals)

def a2xSlot (info : LocInfo) (q : ℕ × ℕ) : BridgeCode :=
  .ld .rax .rbx q.1 :: (tcgExtendArgInRaxByLocInfo info ++ [.st .rax .rsp q.2])

structure Stored (info : LocInfo) (l : List (ℕ × ℕ)) (s s' : State) : Prop where
  gpr : ∀ r, r ≠ .rax → s'.gpr r = s.gpr r
  xmm : s'.xmm = s.xmm
  out : ∀ a, (∀ q ∈ l, a < s.ea .rsp q.2 ∨ s.ea .rsp q.2 + 8 ≤ a) → s'.mem a = s.mem a
  slot : ∀ q ∈ l, ∀ k < 8, s'.mem (s.ea .rsp q.2 + k) =
    byteAt (info.extend (BitVec.ofNat 64 (s.mem.loadWord (s.ea .rbx q.1) 8))).toNat k

theorem run_a2xSlot (info : LocInfo) (q : ℕ × ℕ) (s : State) :
    let w := BitVec.ofNat 64 (s.mem.loadWord (s.ea .rbx q.1) 8)
    run E (a2xSlot info q) s = some (((s.setGpr .rax w).setGpr .rax (info.extend w)).setMem
      (s.mem.storeWord (s.ea .rsp q.2) 8 (info.extend w).toNat)) := by
  simp only [a2xSlot, run_cons, Insn.step, bind_some, run_tcgExtend, run_nil, ea,
    setGpr_gpr_same, setGpr_mem]
  rfl

theorem stored_single {info : LocInfo} {q : ℕ × ℕ} {s s' : State}
    (h : run E (a2xSlot info q) s = some s') : Stored info [q] s s' := by
  rw [run_a2xSlot] at h
  cases h
  refine ⟨fun r hr => by simp [hr], rfl, fun a ha => ?_, fun p hp k hk => ?_⟩
  · exact storeWord_outside _ _ _ _ a (ha q (mem_singleton.mpr rfl))
  · obtain rfl := mem_singleton.mp hp
    exact storeWord_inside s.mem _ 8 _ k hk

structure Storable (s : State) (l : List (ℕ × ℕ)) : Prop where
  above : l.Pairwise fun p q => p.2 + 8 ≤ q.2
  apart : ∀ p ∈ l, ∀ q ∈ l, ∀ k < 8, s.ea .rbx p.1 + k < s.ea .rsp q.2 ∨
    s.ea .rsp q.2 + 8 ≤ s.ea .rbx p.1 + k

theorem run_slots (info : LocInfo) {l : List (ℕ × ℕ)} {s : State} (h : Storable s l) :
    ∃ s', run E (l.flatMap (a2xSlot info)) s = some s' ∧ Stored info l s s' := by
  induction l generalizing s with
  | nil => exact ⟨s, rfl, fun _ _ => rfl, rfl, fun _ _ => rfl, fun q hq => absurd hq (by simp)⟩
  | cons q l ih =>
    obtain ⟨s₁, hs₁⟩ : ∃ s₁, run E (a2xSlot info q) s = some s₁ := ⟨_, run_a2xSlot E info q s⟩
    have h₁ := stored_single E hs₁
    have hrsp : s₁.gpr .rsp = s.gpr .rsp := h₁.gpr .rsp (by decide)
    have hrbx : s₁.gpr .rbx = s.gpr .rbx := h₁.gpr .rbx (by decide)
    have hrest : Storable s₁ l := by
      refine ⟨(pairwise_cons.mp h.above).2, fun p hp r hr k hk => ?_⟩
      simp only [ea, hrsp, hrbx]
      exact h.apart p (mem_cons_of_mem q hp) r (mem_cons_of_mem q hr) k hk
    obtain ⟨s', hs', h'⟩ := ih hrest
    refine ⟨s', ?_, fun r hr => (h'.gpr r hr).trans (h₁.gpr r hr), h'.xmm.trans h₁.xmm,
      fun a ha => ?_, fun p hp k hk => ?_⟩
    · rw [flatMap_cons, run_append_some E hs₁]
      exact hs'
    · rw [h'.out a fun p hp => ?_]
      · exact h₁.out a fun p hp => ha p (by simp_all)
      · simp only [ea, hrsp]
        exact ha p (mem_cons_of_mem q hp)
    · rcases mem_cons.mp hp with rfl | hl
      · -- the later slots lie above this one
        rw [h'.out _ fun r hr => ?_]
        · exact h₁.slot p (mem_singleton.mpr rfl) k hk
        · have := (pairwise_cons.mp h.above).1 r hr
          simp only [ea, hrsp]
          omega
      · have := h'.slot p hl k hk
        simp only [ea, hrsp, hrbx] at this
        simp only [ea]
        rw [this, loadWord_congr s₁.mem s.mem _ _ fun i hi => ?_]
        apply h₁.out
        intro r hr
        obtain rfl := mem_singleton.mp hr
        exact h.apart p hp r mem_cons_self i hi

end Slots

section Copy
variable (E : BridgeExternals)

theorem toNat_sub_eight {v : BitVec 64} (h : 8 ≤ v.toNat) : (v - 8).toNat = v.toNat - 8 := by
  bv_omega

def savedRegs (s : State) : Mem :=
  ((s.mem.storeWord ((s.gpr .rsp).toNat - 8) 8 (s.gpr .rdi).toNat).storeWord
    ((s.gpr .rsp).toNat - 16) 8 (s.gpr .rsi).toNat).storeWord
    ((s.gpr .rsp).toNat - 24) 8 (s.gpr .rcx).toNat

variable {s : State}

theorem savedRegs_outside (h : 24 ≤ (s.gpr .rsp).toNat) {a : ℕ}
    (ha : a + 24 < (s.gpr .rsp).toNat ∨ (s.gpr .rsp).toNat ≤ a) : savedRegs s a = s.mem a := by
  unfold savedRegs
  rw [storeWord_outside _ _ _ _ _ (by omega), storeWord_outside _ _ _ _ _ (by omega),
    storeWord_outside _ _ _ _ _ (by omega)]

theorem loadWord_savedRegs (h : 24 ≤ (s.gpr .rsp).toNat) {m : Mem}
    (hm : ∀ a, a < (s.gpr .rsp).toNat → m a = savedRegs s a) :
    BitVec.ofNat 64 (m.loadWord ((s.gpr .rsp).toNat - 24) 8) = s.gpr .rcx ∧
      BitVec.ofNat 64 (m.loadWord ((s.gpr .rsp).toNat - 16) 8) = s.gpr .rsi ∧
      BitVec.ofNat 64 (m.loadWord ((s.gpr .rsp).toNat - 8) 8) = s.gpr .rdi := by
  have word : ∀ (m' : Mem) (a : ℕ) (v : BitVec 64),
      BitVec.ofNat 64 ((m'.storeWord a 8 v.toNat).loadWord a 8) = v := by
    intro m' a v
    rw [loadWord_storeWord, Nat.mod_eq_of_lt (by have := v.isLt; omega), BitVec.ofNat_toNat]
    simp
  refine ⟨?_, ?_, ?_⟩
  · rw [loadWord_congr m (savedRegs s) _ _ fun k hk => hm _ (by omega)]
    exact word _ _ _
  · rw [loadWord_congr m ((s.mem.storeWord ((s.gpr .rsp).toNat - 8) 8 (s.gpr .rdi).toNat).storeWord
      ((s.gpr .rsp).toNat - 16) 8 (s.gpr .rsi).toNat) _ _ fun k hk => ?_]
    · exact word _ _ _
    · rw [hm _ (by omega), savedRegs, storeWord_outside _ _ _ _ _ (by omega)]
  · rw [loadWord_congr m (s.mem.storeWord ((s.gpr .rsp).toNat - 8) 8 (s.gpr .rdi).toNat) _ _
      fun k hk => ?_]
    · exact word _ _ _
    · rw [hm _ (by omega), savedRegs, storeWord_outside _ _ _ _ _ (by omega),
        storeWord_outside _ _ _ _ _ (by omega)]

theorem run_saveRegs (h : 24 ≤ (s.gpr .rsp).toNat) (code : BridgeCode) :
    run E (.push .rdi :: .push .rsi :: .push .rcx :: code) s =
      run E code ((s.setMem (savedRegs s)).setGpr .rsp (s.gpr .rsp - 8 - 8 - 8)) := by
  have h8 := toNat_sub_eight (v := s.gpr .rsp) (by omega)
  have h16 := toNat_sub_eight (v := s.gpr .rsp - 8) (by omega)
  have h24 := toNat_sub_eight (v := s.gpr .rsp - 8 - 8) (by omega)
  have hmem : ((s.mem.storeWord (s.gpr .rsp - 8).toNat 8 (s.gpr .rdi).toNat).storeWord
      (s.gpr .rsp - 8 - 8).toNat 8 (s.gpr .rsi).toNat).storeWord
      (s.gpr .rsp - 8 - 8 - 8).toNat 8 (s.gpr .rcx).toNat = savedRegs s := by
    rw [h24, h16, h8, Nat.sub_sub, Nat.sub_sub]
    rfl
  simp only [run_cons, Insn.step, bind_some, setMem_gpr, setMem_mem,
    setGpr_mem, setGpr_gpr, setGpr_setMem, setMem_setMem,
    setGpr_setGpr, if_true, reduceCtorEq, if_false, hmem]

/-- The registers come back, from any memory that has the saved words. -/
theorem run_restoreRegs {t : State} (h : 24 ≤ (s.gpr .rsp).toNat)
    (hrsp : t.gpr .rsp = s.gpr .rsp - 8 - 8 - 8)
    (hm : ∀ a, a < (s.gpr .rsp).toNat → t.mem a = savedRegs s a) :
    ∃ t', run E [.pop .rcx, .pop .rsi, .pop .rdi] t = some t' ∧ t'.mem = t.mem ∧ t'.xmm = t.xmm ∧
      ∀ r, (r ≠ .rcx → r ≠ .rsi → r ≠ .rdi → r ≠ .rsp → t.gpr r = s.gpr r) →
        t'.gpr r = s.gpr r := by
  obtain ⟨hrcx, hrsi, hrdi⟩ := loadWord_savedRegs h hm
  have h8 := toNat_sub_eight (v := s.gpr .rsp) (by omega)
  have h16 := toNat_sub_eight (v := s.gpr .rsp - 8) (by omega)
  have h24 := toNat_sub_eight (v := s.gpr .rsp - 8 - 8) (by omega)
  rw [h16, h8, Nat.sub_sub, Nat.sub_sub] at h24
  rw [h8, Nat.sub_sub] at h16
  have hback : ∀ v : BitVec 64, v - 8 + 8 = v := fun v => BitVec.sub_add_cancel v 8
  simp only [run_cons, run_nil, Insn.step, bind_some, setGpr_mem, setGpr_gpr,
    if_true, reduceCtorEq, if_false, hrsp, hback, h24, h16, h8, Nat.reduceAdd, hrcx, hrsi, hrdi]
  refine ⟨_, rfl, rfl, rfl, fun r hr => ?_⟩
  cases r <;> simp_all

theorem toNat_copyTarget {v : BitVec 64} {offset : ℕ} (h : 24 ≤ v.toNat)
    (hlt : v.toNat + offset < 2 ^ 64) :
    (v - 8 - 8 - 8 + BitVec.ofInt 64 (offset + 8 * 3)).toNat = v.toNat + offset := by
  have hofs : BitVec.ofInt 64 (offset + 8 * 3) = BitVec.ofNat 64 (offset + 24) := by
    rw [← BitVec.ofInt_natCast]
    congr 1
  rw [hofs]
  bv_omega

/-- The block copy: it changes only its destination and the saved words below the stack pointer. -/
theorem run_a2xCopy (setup : BridgeCode) (size offset src : ℕ)
    (h : 24 ≤ (s.gpr .rsp).toNat) (hdst : s.ea .rsp offset + size < 2 ^ 64) (hsrc : src < 2 ^ 64)
    (hsetup : ∀ t : State, t.gpr .rbx = s.gpr .rbx →
      (∀ a, a + 24 < (s.gpr .rsp).toNat ∨ (s.gpr .rsp).toNat ≤ a → t.mem a = s.mem a) →
      ∃ v, run E setup t = some ((t.setGpr .rax v).setGpr .rsi (BitVec.ofNat 64 src)))
    (hapart : ∀ k < size, (src + k + 24 < (s.gpr .rsp).toNat ∨ (s.gpr .rsp).toNat ≤ src + k) ∧
      (src + k < s.ea .rsp offset ∨ s.ea .rsp offset + size ≤ src + k)) :
    ∃ s', run E (a2xCopy setup size offset) s = some s' ∧ (∀ r, r ≠ .rax → s'.gpr r = s.gpr r) ∧
      s'.xmm = s.xmm ∧
      (∀ a, (a + 24 < (s.gpr .rsp).toNat ∨ (s.gpr .rsp).toNat ≤ a) →
        (a < s.ea .rsp offset ∨ s.ea .rsp offset + size ≤ a) → s'.mem a = s.mem a) ∧
      ∀ k < size, s'.mem (s.ea .rsp offset + k) = s.mem (src + k) := by
  have hea : s.ea .rsp offset = (s.gpr .rsp).toNat + offset := rfl
  have hrdi : (s.gpr .rsp - 8 - 8 - 8 + BitVec.ofInt 64 (offset + 8 * 3)).toNat = s.ea .rsp offset :=
    toNat_copyTarget h (by omega)
  have hrcx : (BitVec.ofNat 64 size).toNat = size := by
    rw [BitVec.toNat_ofNat, Nat.mod_eq_of_lt (by omega)]
  have hrsi : (BitVec.ofNat 64 src).toNat = src := by
    rw [BitVec.toNat_ofNat, Nat.mod_eq_of_lt hsrc]
  have hdisj : s.ea .rsp offset + size ≤ src ∨ src + size ≤ s.ea .rsp offset := by
    by_contra hno
    have h₀ := (hapart 0 (by omega)).2
    have := (hapart (s.ea .rsp offset - src) (by omega)).2
    omega
  obtain ⟨v, hv⟩ := hsetup (((s.setMem (savedRegs s)).setGpr .rsp (s.gpr .rsp - 8 - 8 - 8)).setGpr
    .rcx (BitVec.ofNat 64 size)) (by simp) fun a ha => savedRegs_outside h ha
  -- the machine between the string copy and the first pop
  obtain ⟨t, ht, htmem, htxmm, htrsp, htgpr⟩ : ∃ t, run E ([.push .rdi, .push .rsi, .push .rcx,
      .movi .rcx size] ++ setup ++ [.mov .rdi .rsp, .addi .rdi (offset + 8 * 3), .repMovsb]) s =
        some t ∧ t.mem = (savedRegs s).copyForward (s.ea .rsp offset) src size ∧ t.xmm = s.xmm ∧
        t.gpr .rsp = s.gpr .rsp - 8 - 8 - 8 ∧
        ∀ r, r ≠ .rcx → r ≠ .rsi → r ≠ .rdi → r ≠ .rsp → r ≠ .rax → t.gpr r = s.gpr r := by
    simp only [cons_append, nil_append, run_saveRegs E h, run_cons _ (.movi _ _), Insn.step,
      bind_some, run_append_some E hv]
    simp only [run_cons, run_nil, Insn.step, bind_some, setGpr_gpr, setGpr_mem,
      setMem_mem, if_true, reduceCtorEq, if_false, hrdi, hrcx, hrsi]
    refine ⟨_, rfl, rfl, rfl, ?_, fun r h₁ h₂ h₃ h₄ h₅ => ?_⟩
    · simp
    · simp [h₁, h₂, h₃, h₄, h₅]
  obtain ⟨s', hs', hmem, hxmm, hgpr⟩ := run_restoreRegs E h htrsp fun a ha => by
    rw [htmem]
    exact copyForward_outside size _ _ _ a (by omega)
  refine ⟨s', ?_, fun r hr => hgpr r fun h₁ h₂ h₃ h₄ => htgpr r h₁ h₂ h₃ h₄ hr, hxmm.trans htxmm,
    fun a ha hout => ?_, fun k hk => ?_⟩
  · rw [← hs', ← run_append_some E ht]
    simp [a2xCopy]
  · rw [hmem, htmem, copyForward_outside size _ _ _ a hout]
    exact savedRegs_outside h ha
  · rw [hmem, htmem, copyForward_inside size _ _ _ k hk hdisj]
    exact savedRegs_outside h (hapart k hk).1

end Copy

end Iqemu64
