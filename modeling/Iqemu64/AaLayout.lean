import Iqemu64.Layout
import Iqemu64.ParsedTypes

/-!
# AArch64 layout of arbitrary argument lists

The argument loop of the AArch64 preparation on every descriptor that the type parser can build. Each
turn takes registers of one bank or closes the bank and takes the next stack slot, so the counters
order the arguments. The structures that hold the result have 32-bit fields, and the order is what a
reader finds there as long as the stack arguments stay below `2 ^ 31` bytes.
-/

namespace Iqemu64
open StepChain List Option ABIArgInfo

inductive ABank where
  | general | vector
  deriving DecidableEq, Repr

def ABank.reg : ABank → ℕ → AReg
  | general => .x
  | vector => .q

def FfiType.bank (d : FfiType) : ABank :=
  if isVfpType d = some 0 ∨ isVfpType d = none then .general else .vector

def AaAlloc.count (al : AaAlloc) : ABank → ℕ
  | .general => al.gprcount
  | .vector => al.ssecount

inductive AaTurn (d : FfiType) (al : AaAlloc) (info : ABIArgInfo AReg) (al' : AaAlloc) : Prop
  | regs (n : ℕ) (hpos : 0 < n) (hfit : al.count d.bank + n ≤ 8)
      (hloc : info.loc = .regs (aaRegs d.bank.reg (al.count d.bank) n))
      (hbank : al'.count d.bank = al.count d.bank + n)
      (hother : ∀ b, b ≠ d.bank → al'.count b = al.count b)
      (hstack : al'.stackOffset = al.stackOffset)
      (hmode : al'.allocatingVariadic = al.allocatingVariadic)
  | stack (hloc : info.loc = .mem (al.memOffset d.alignment) .noLocInfo) (hbank : al'.count d.bank = 8)
      (hother : ∀ b, b ≠ d.bank → al'.count b = al.count b)
      (hstack : al'.stackOffset = al.memOffset d.alignment + info.stackExtent)
      (hextent : 0 < info.stackExtent) (hmode : al'.allocatingVariadic = al.allocatingVariadic)

variable {n : ℕ}

theorem aaTurn_passInGpr {d : FfiType} {al : AaAlloc} {extent : ℕ} {indirect : Bool}
    (hbank : d.bank = .general) (hn : 0 < n) (hextent : extent = if indirect then 8 else d.size)
    (hpos : 0 < extent) :
    AaTurn d al { loc := (al.passInGpr n d.alignment extent).1, size := d.size, indirect }
      (al.passInGpr n d.alignment extent).2 := by
  unfold AaAlloc.passInGpr
  split_ifs with hfit
  · refine .regs n hn ?_ ?_ ?_ ?_ rfl rfl
    · rw [hbank]
      exact hfit
    · rw [hbank]
      rfl
    · rw [hbank]
      rfl
    · rw [hbank]
      rintro (_ | _) hb
      · exact absurd rfl hb
      · rfl
  · refine .stack rfl ?_ ?_ ?_ ?_ rfl
    · rw [hbank]
      rfl
    · rw [hbank]
      rintro (_ | _) hb
      · exact absurd rfl hb
      · rfl
    · exact congrArg _ hextent
    · exact hextent ▸ hpos

theorem aaTurn_passInVector {d : FfiType} {al : AaAlloc} (hbank : d.bank = .vector) (hn : 0 < n)
    (hpos : 0 < d.size) :
    AaTurn d al { loc := (al.passInVector n d.alignment d.size).1, size := d.size }
      (al.passInVector n d.alignment d.size).2 := by
  unfold AaAlloc.passInVector
  split_ifs with hfit
  · refine .regs n hn ?_ ?_ ?_ ?_ rfl rfl
    · rw [hbank]
      exact hfit
    · rw [hbank]
      rfl
    · rw [hbank]
      rfl
    · rw [hbank]
      rintro (_ | _) hb
      · rfl
      · exact absurd rfl hb
  · refine .stack rfl ?_ ?_ rfl hpos rfl
    · rw [hbank]
      rfl
    · rw [hbank]
      rintro (_ | _) hb
      · rfl
      · exact absurd rfl hb

theorem bank_of_scalar {d : FfiType} (h : isVfpType d = some 0) : d.bank = .general := if_pos (Or.inl h)

theorem aaTurn_of_aaArg {d : FfiType} {al al' : AaAlloc} {info : ABIArgInfo AReg} (hd : d.Sized)
    (h : aaArg d al = some (info, al')) : AaTurn d al info al' := by
  have hsize := hd.size
  unfold aaArg at h
  split at h
  · cases h
  all_goals rename_i htype
  case h_12 | h_13 | h_14 | h_15 | h_16 =>
    obtain ⟨code, hcode, h⟩ := map_eq_some_iff.mp h
    split_ifs at h with h0 h16
    · cases h
      have hbank : d.bank = .vector := by
        refine if_neg ?_
        rw [hcode]
        simpa using h0
      exact aaTurn_passInVector hbank (by omega) hsize
    · cases h
      exact aaTurn_passInGpr (bank_of_scalar (by rw [hcode]; simpa using h0)) one_pos rfl (by omega)
    · cases h
      exact aaTurn_passInGpr (bank_of_scalar (by rw [hcode]; simpa using h0)) (by omega) rfl hsize
  all_goals
    cases h
    exact aaTurn_passInGpr (bank_of_scalar (by unfold isVfpType; rw [htype])) one_pos rfl hsize

namespace AaAlloc

structure Ready (al : AaAlloc) (nfixed i : ℕ) : Prop where
  le : ∀ b, al.count b ≤ 8
  closed : nfixed ≠ 0 → nfixed ≤ i → al.allocatingVariadic = true ∧ ∀ b, al.count b = 8

theorem memOffset_ge (al : AaAlloc) {a : ℕ} (ha : IsAlignment a) : al.stackOffset ≤ al.memOffset a := by
  unfold memOffset
  split_ifs
  · exact (ffiAlign_spec _ (Or.inr (Or.inr (Or.inr rfl)))).1
  · exact (ffiAlign_spec _ ha).1

theorem memOffset_mod_eight {al : AaAlloc} (hal : al.allocatingVariadic = true) {a : ℕ}
    (ha : IsAlignment a) : al.memOffset a % 8 = 0 := by
  have height : (if (al.allocatingVariadic && decide (a < 8)) = true then 8 else a) = 8 := by
    rw [hal]
    rcases ha with rfl | rfl | rfl | rfl <;> rfl
  unfold memOffset
  rw [height]
  exact (ffiAlign_spec _ (Or.inr (Or.inr (Or.inr rfl)))).2.2

def next (al : AaAlloc) (nfixed i : ℕ) : AaAlloc := if i + 1 = nfixed then al.enterVariadic else al

end AaAlloc

namespace AaTurn

variable {d : FfiType} {al al' : AaAlloc} {info : ABIArgInfo AReg} {nfixed i : ℕ}

theorem count_le (h : AaTurn d al info al') (hal : al.Ready nfixed i) (b : ABank) :
    al.count b ≤ al'.count b ∧ al'.count b ≤ 8 := by
  have hle := hal.le
  by_cases hb : b = d.bank
  · subst hb
    cases h with
    | regs n hpos hfit hloc hbank hother hstack hmode => omega
    | stack hloc hbank hother hstack hextent hmode => exact ⟨hbank ▸ hle _, hbank.le⟩
  · cases h with
    | regs n hpos hfit hloc hbank hother hstack hmode =>
      rw [hother b hb]
      exact ⟨le_rfl, hle b⟩
    | stack hloc hbank hother hstack hextent hmode =>
      rw [hother b hb]
      exact ⟨le_rfl, hle b⟩

theorem stackOffset_le (h : AaTurn d al info al') (hd : d.Sized) : al.stackOffset ≤ al'.stackOffset := by
  cases h with
  | regs n hpos hfit hloc hbank hother hstack hmode => exact hstack.ge
  | stack hloc hbank hother hstack hextent hmode =>
    have := al.memOffset_ge hd.alignment
    omega

theorem mode_eq (h : AaTurn d al info al') : al'.allocatingVariadic = al.allocatingVariadic := by
  cases h <;> assumption

theorem ready (h : AaTurn d al info al') (hal : al.Ready nfixed i) :
    (al'.next nfixed i).Ready nfixed (i + 1) := by
  unfold AaAlloc.next
  split_ifs with hi
  · have hfull : ∀ b, al'.enterVariadic.count b = 8 := by rintro (_ | _) <;> rfl
    exact ⟨fun b => (hfull b).le, fun _ _ => ⟨rfl, hfull⟩⟩
  · refine ⟨fun b => (h.count_le hal b).2, fun h0 hle => ?_⟩
    obtain ⟨hmode, hfull⟩ := hal.closed h0 (by omega)
    refine ⟨h.mode_eq.trans hmode, fun b => ?_⟩
    have := h.count_le hal b
    have := hfull b
    omega

theorem regs_eq (h : AaTurn d al info al') {r : AReg} (hr : r ∈ info.regs) :
    ∃ n, al.count d.bank ≤ n ∧ n < al'.count d.bank ∧ r = d.bank.reg n := by
  cases h with
  | regs n hpos hfit hloc hbank hother hstack hmode =>
    simp only [ABIArgInfo.regs, hloc, aaRegs, List.map_map, List.mem_map, List.mem_range,
      Function.comp_apply] at hr
    obtain ⟨k, hk, rfl⟩ := hr
    exact ⟨al.count d.bank + k, by omega, by omega, rfl⟩
  | stack hloc hbank hother hstack hextent hmode =>
    simp only [ABIArgInfo.regs, hloc] at hr
    cases hr

/-- A stack argument lies between the offsets before and after it, and its bank is closed. -/
theorem of_mem (h : AaTurn d al info al') (hd : d.Sized) {o : ℕ} {l : LocInfo}
    (ho : info.loc = .mem o l) :
    al.stackOffset ≤ o ∧ o + info.stackExtent = al'.stackOffset ∧ 0 < info.stackExtent ∧
      al'.count d.bank = 8 ∧ o = al.memOffset d.alignment := by
  cases h with
  | regs n hpos hfit hloc hbank hother hstack hmode =>
    rw [hloc] at ho
    cases ho
  | stack hloc hbank hother hstack hextent hmode =>
    obtain ⟨rfl, -⟩ := ArgLoc.mem.inj (hloc.symm.trans ho)
    exact ⟨al.memOffset_ge hd.alignment, hstack.symm, hextent, hbank, rfl⟩

theorem nodup_regs (h : AaTurn d al info al') : info.regs.Nodup := by
  cases h with
  | regs n hpos hfit hloc hbank hother hstack hmode =>
    simp only [ABIArgInfo.regs, hloc, aaRegs, List.map_map]
    refine List.Nodup.map ?_ List.nodup_range
    intro j k hjk
    cases hb : d.bank <;> simp [hb, ABank.reg] at hjk <;> exact hjk
  | stack hloc hbank hother hstack hextent hmode => simp [ABIArgInfo.regs, hloc]

theorem variadic (h : AaTurn d al info al') (hd : d.Sized) (hal : al.Ready nfixed i) (h0 : nfixed ≠ 0)
    (hi : nfixed ≤ i) : ∃ o l, info.loc = .mem o l ∧ o % 8 = 0 := by
  obtain ⟨hmode, hfull⟩ := hal.closed h0 hi
  cases h with
  | regs n hpos hfit hloc hbank hother hstack hmode' =>
    have := hfull d.bank
    omega
  | stack hloc hbank hother hstack hextent hmode' =>
    exact ⟨_, _, hloc, AaAlloc.memOffset_mod_eight hmode hd.alignment⟩

end AaTurn

@[simp] theorem AaAlloc.next_stackOffset (al : AaAlloc) (nfixed i : ℕ) :
    (al.next nfixed i).stackOffset = al.stackOffset := by
  unfold next
  split_ifs <;> rfl

theorem AaAlloc.le_count_next {al : AaAlloc} {nfixed i : ℕ} (hle : ∀ b, al.count b ≤ 8) (b : ABank) :
    al.count b ≤ (al.next nfixed i).count b := by
  unfold next
  split_ifs
  · exact (hle b).trans_eq (by cases b <;> rfl)
  · exact le_rfl

structure AaStep (nfixed bytes : ℕ) (c : ℕ × AaAlloc) (p : FfiType × ABIArgInfo AReg)
    (c' : ℕ × AaAlloc) : Prop where
  sized : p.1.Sized
  ready : c.2.Ready nfixed c.1
  turn : ∃ al, AaTurn p.1 c.2 p.2 al ∧ c'.2 = al.next nfixed c.1
  index : c'.1 = c.1 + 1
  fits : c'.2.stackOffset ≤ bytes

variable {ds : List FfiType} {infos : List (ABIArgInfo AReg)}

theorem aaArgs_cons {nfixed i : ℕ} {d : FfiType} {al al' : AaAlloc} (h : aaArgs nfixed (d :: ds) i al = some (infos, al')) :
    ∃ info infos' al₁, infos = info :: infos' ∧ aaArg d al = some (info, al₁) ∧
      aaArgs nfixed ds (i + 1) (al₁.next nfixed i) = some (infos', al') := by
  rw [aaArgs] at h
  obtain ⟨⟨info, al₁⟩, harg, h⟩ := bind_eq_some_iff.mp h
  obtain ⟨⟨infos', al₂⟩, hrest, h⟩ := map_eq_some_iff.mp h
  cases h
  exact ⟨info, infos', al₁, rfl, harg, hrest⟩

theorem aaArgs_ge {nfixed i : ℕ} {al al' : AaAlloc}
    (hds : ∀ d ∈ ds, d.Sized) (h : aaArgs nfixed ds i al = some (infos, al')) :
    al.stackOffset ≤ al'.stackOffset := by
  induction ds generalizing i al infos with
  | nil =>
    obtain ⟨-, rfl⟩ := Prod.mk.inj (Option.some.inj h)
    exact le_rfl
  | cons d ds ih =>
    obtain ⟨info, infos', al₁, rfl, harg, hrest⟩ := aaArgs_cons h
    have hd := hds d mem_cons_self
    have hle := (aaTurn_of_aaArg hd harg).stackOffset_le hd
    have := ih (forall_mem_cons.mp hds).2 hrest
    rw [AaAlloc.next_stackOffset] at this
    omega

theorem aaArgs_chain {nfixed i : ℕ} {al al' : AaAlloc} (hds : ∀ d ∈ ds, d.Sized) (hal : al.Ready nfixed i)
    (h : aaArgs nfixed ds i al = some (infos, al')) :
    ∃ c', Chain (AaStep nfixed al'.stackOffset) (i, al) (ds.zip infos) c' ∧
      infos.length = ds.length := by
  induction ds generalizing i al infos with
  | nil =>
    cases h
    exact ⟨_, .nil _, rfl⟩
  | cons d ds ih =>
    obtain ⟨info, infos', al₁, rfl, harg, hrest⟩ := aaArgs_cons h
    have hd := hds d mem_cons_self
    have hds' : ∀ x ∈ ds, x.Sized := fun x hx => hds x (mem_cons_of_mem d hx)
    have hturn := aaTurn_of_aaArg hd harg
    obtain ⟨c', hchain, hlen⟩ := ih hds' (hturn.ready hal) hrest
    refine ⟨c', .cons ⟨hd, hal, ⟨al₁, hturn, rfl⟩, rfl, aaArgs_ge hds' hrest⟩ hchain, ?_⟩
    rw [length_cons, length_cons, hlen]

namespace AaStep

variable {nfixed bytes : ℕ} {c c' : ℕ × AaAlloc} {p : FfiType × ABIArgInfo AReg}

theorem count_le (h : AaStep nfixed bytes c p c') (b : ABank) : c.2.count b ≤ c'.2.count b := by
  obtain ⟨al, hturn, hal⟩ := h.turn
  rw [hal]
  exact (hturn.count_le h.ready b).1.trans
    (AaAlloc.le_count_next (fun b => (hturn.count_le h.ready b).2) b)

theorem count_le_eight (h : AaStep nfixed bytes c p c') (b : ABank) : c'.2.count b ≤ 8 := by
  obtain ⟨al, hturn, hal⟩ := h.turn
  rw [hal]
  exact (hturn.ready h.ready).le b

theorem stackOffset_le (h : AaStep nfixed bytes c p c') : c.2.stackOffset ≤ c'.2.stackOffset := by
  obtain ⟨al, hturn, hal⟩ := h.turn
  rw [hal, AaAlloc.next_stackOffset]
  exact hturn.stackOffset_le h.sized

theorem regs_eq (h : AaStep nfixed bytes c p c') {r : AReg} (hr : r ∈ p.2.regs) :
    ∃ n, c.2.count p.1.bank ≤ n ∧ n < c'.2.count p.1.bank ∧ r = p.1.bank.reg n := by
  obtain ⟨al, hturn, hal⟩ := h.turn
  obtain ⟨n, hle, hlt, hreg⟩ := hturn.regs_eq hr
  rw [hal]
  exact ⟨n, hle, hlt.trans_le (AaAlloc.le_count_next (fun b => (hturn.count_le h.ready b).2) _), hreg⟩

theorem of_mem (h : AaStep nfixed bytes c p c') {o : ℕ} {l : LocInfo} (ho : p.2.loc = .mem o l) :
    c.2.stackOffset ≤ o ∧ o + p.2.stackExtent ≤ c'.2.stackOffset ∧ 0 < p.2.stackExtent ∧
      c'.2.count p.1.bank = 8 := by
  obtain ⟨al, hturn, hal⟩ := h.turn
  obtain ⟨hge, hend, hpos, hfull, -⟩ := hturn.of_mem h.sized ho
  refine ⟨hge, ?_, hpos, ?_⟩
  · rw [hal, AaAlloc.next_stackOffset, hend]
  · have hge8 : al.count p.1.bank ≤ (al.next nfixed c.1).count p.1.bank :=
      AaAlloc.le_count_next (fun b => (hturn.count_le h.ready b).2) _
    have hle8 := h.count_le_eight p.1.bank
    rw [hal] at hle8 ⊢
    omega

end AaStep

theorem ABank.reg_inj {b b' : ABank} {n' : ℕ} (h : b.reg n = b'.reg n') : b = b' ∧ n = n' := by
  cases b <;> cases b' <;> simp [ABank.reg] at h <;> exact ⟨rfl, h⟩

structure AaOrdered (p q : FfiType × ABIArgInfo AReg) : Prop where
  regs : ∀ r ∈ p.2.regs, r ∉ q.2.regs
  stack : ∀ o l o' l', p.2.loc = .mem o l → q.2.loc = .mem o' l' → o + p.2.stackExtent ≤ o'
  closed : p.2.teIsMem → ∀ n, p.1.bank.reg n ∉ q.2.regs

structure AaBelow (c : ℕ × AaAlloc) (p : FfiType × ABIArgInfo AReg) : Prop where
  regs : ∀ r ∈ p.2.regs, ∃ n, n < c.2.count p.1.bank ∧ r = p.1.bank.reg n
  stack : ∀ o l, p.2.loc = .mem o l → o + p.2.stackExtent ≤ c.2.stackOffset
  closed : p.2.teIsMem → c.2.count p.1.bank = 8

theorem ABIArgInfo.exists_mem {R : Type} {a : ABIArgInfo R} (h : a.teIsMem) :
    ∃ o l, a.loc = .mem o l := by
  unfold teIsMem at h
  cases hloc : a.loc with
  | regs rs => simp [hloc] at h
  | mem o l => exact ⟨o, l, rfl⟩

theorem AaStep.below {nfixed bytes : ℕ} {c c' : ℕ × AaAlloc} {p : FfiType × ABIArgInfo AReg}
    (h : AaStep nfixed bytes c p c') : AaBelow c' p where
  regs r hr := by
    obtain ⟨n, -, hlt, hreg⟩ := h.regs_eq hr
    exact ⟨n, hlt, hreg⟩
  stack o l ho := (h.of_mem ho).2.1
  closed hmem := by
    obtain ⟨o, l, ho⟩ := exists_mem hmem
    exact (h.of_mem ho).2.2.2

theorem AaBelow.step {nfixed bytes : ℕ} {c c' : ℕ × AaAlloc} {p q : FfiType × ABIArgInfo AReg}
    (hq : AaBelow c q) (h : AaStep nfixed bytes c p c') : AaBelow c' q where
  regs r hr := by
    obtain ⟨n, hlt, hreg⟩ := hq.regs r hr
    exact ⟨n, hlt.trans_le (h.count_le _), hreg⟩
  stack o l ho := (hq.stack o l ho).trans h.stackOffset_le
  closed hmem := by
    have := hq.closed hmem
    have := h.count_le q.1.bank
    have := h.count_le_eight q.1.bank
    omega

theorem AaBelow.ordered {nfixed bytes : ℕ} {c c' : ℕ × AaAlloc} {p q : FfiType × ABIArgInfo AReg}
    (hq : AaBelow c q) (h : AaStep nfixed bytes c p c') : AaOrdered q p where
  regs r hr hr' := by
    obtain ⟨n, hlt, hreg⟩ := hq.regs r hr
    obtain ⟨n', hle, -, hreg'⟩ := h.regs_eq hr'
    obtain ⟨hbank, hn⟩ := ABank.reg_inj (hreg.symm.trans hreg')
    rw [hbank] at hlt
    omega
  stack o l o' l' ho ho' := (hq.stack o l ho).trans (h.of_mem ho').1
  closed hmem n hr := by
    -- the bank is full, and a later register would have to lie above the counter
    obtain ⟨n', hle, hlt, hreg⟩ := h.regs_eq hr
    have hbank := (ABank.reg_inj hreg).1
    have hfull := hq.closed hmem
    have hle8 := h.count_le_eight p.1.bank
    rw [hbank] at hfull
    omega

structure AaLayout (nfixed : ℕ) (ds : List FfiType) (ainfo : List (ABIArgInfo AReg)) (bytes : ℤ) :
    Prop where
  length_eq : ainfo.length = ds.length
  argReg : ∀ a ∈ ainfo, ∀ r ∈ a.regs, ∃ b n, n < 8 ∧ r = ABank.reg b n
  once : (ainfo.flatMap regs).Nodup
  nonempty : ∀ a ∈ ainfo, a.teIsMem → 0 < a.stackExtent
  inside : ∀ a ∈ ainfo, ∀ o l, a.loc = .mem o l → ((o + a.stackExtent : ℕ) : ℤ) ≤ bytes
  increasing : ainfo.Pairwise fun a b =>
    ∀ o l o' l', a.loc = .mem o l → b.loc = .mem o' l' → o + a.stackExtent ≤ o'
  closed : (ds.zip ainfo).Pairwise fun p q => p.2.teIsMem → ∀ n, p.1.bank.reg n ∉ q.2.regs
  variadic : nfixed ≠ 0 → ∀ i ≥ nfixed, ∀ a, ainfo[i]? = some a →
    ∃ o l, a.loc = .mem o l ∧ o % 8 = 0

theorem aaArgs_variadic {nfixed i : ℕ} {al al' : AaAlloc} (hds : ∀ d ∈ ds, d.Sized) (hal : al.Ready nfixed i)
    (h : aaArgs nfixed ds i al = some (infos, al')) (h0 : nfixed ≠ 0) {k : ℕ} (hk : nfixed ≤ i + k)
    {a : ABIArgInfo AReg} (ha : infos[k]? = some a) : ∃ o l, a.loc = .mem o l ∧ o % 8 = 0 := by
  induction ds generalizing i al infos k with
  | nil =>
    cases h
    cases ha
  | cons d ds ih =>
    obtain ⟨info, infos', al₁, rfl, harg, hrest⟩ := aaArgs_cons h
    have hd := hds d mem_cons_self
    have hturn := aaTurn_of_aaArg hd harg
    cases k with
    | zero =>
      cases ha
      exact hturn.variadic hd hal h0 hk
    | succ k =>
      exact ih (forall_mem_cons.mp hds).2 (hturn.ready hal) hrest (by omega) ha

theorem aaLayout_aaArgs {nfixed : ℕ} {al' : AaAlloc} (hds : ∀ d ∈ ds, d.Sized)
    (h : aaArgs nfixed ds 0 {} = some (infos, al')) :
    AaLayout nfixed ds infos al'.stackOffset := by
  have hready : AaAlloc.Ready {} nfixed 0 := by
    refine ⟨?_, fun h0 hle => absurd hle (by omega)⟩
    rintro (_ | _) <;> exact Nat.zero_le 8
  obtain ⟨c', hchain, hlen⟩ := aaArgs_chain hds hready h
  have hpairs : (ds.zip infos).Pairwise AaOrdered :=
    Chain.pairwise AaBelow AaStep.below (fun h hq => hq.step h) (fun h hq => hq.ordered h) hchain
  have hsnd := map_snd_zip hlen.le
  -- a fact about every placed pair is one about every placement
  have hmem : ∀ a ∈ infos, ∃ d c c₁, AaStep nfixed al'.stackOffset c (d, a) c₁ := by
    intro a ha
    rw [← hsnd] at ha
    obtain ⟨⟨d, a⟩, hp, rfl⟩ := mem_map.mp ha
    obtain ⟨c, c₁, hstep⟩ := hchain.exists_of_mem hp
    exact ⟨d, c, c₁, hstep⟩
  have hinfos : infos.Pairwise fun a b => (∀ r ∈ a.regs, r ∉ b.regs) ∧
      ∀ o l o' l', a.loc = .mem o l → b.loc = .mem o' l' → o + a.stackExtent ≤ o' := by
    rw [← hsnd]
    exact pairwise_map.mpr (hpairs.imp fun hpq => ⟨hpq.regs, hpq.stack⟩)
  refine ⟨hlen, ?_, ?_, ?_, ?_, hinfos.imp fun hab => hab.2, hpairs.imp fun hpq => hpq.closed, ?_⟩
  · intro a ha r hr
    obtain ⟨d, c, c₁, hstep⟩ := hmem a ha
    obtain ⟨n, -, hlt, hreg⟩ := hstep.regs_eq hr
    exact ⟨_, n, hlt.trans_le (hstep.count_le_eight _), hreg⟩
  · refine nodup_flatMap.mpr ⟨fun a ha => ?_, hinfos.imp fun hab => ?_⟩
    · obtain ⟨d, c, c₁, hstep⟩ := hmem a ha
      obtain ⟨al, hturn, -⟩ := hstep.turn
      exact hturn.nodup_regs
    · exact fun r hr hr' => hab.1 r hr hr'
  · intro a ha hamem
    obtain ⟨d, c, c₁, hstep⟩ := hmem a ha
    obtain ⟨o, l, ho⟩ := exists_mem hamem
    exact (hstep.of_mem ho).2.2.1
  · intro a ha o l ho
    obtain ⟨d, c, c₁, hstep⟩ := hmem a ha
    exact_mod_cast (hstep.of_mem ho).2.1.trans hstep.fits
  · intro h0 i hi a ha
    exact aaArgs_variadic hds hready h h0 (by omega) ha

def ABIArgInfo.stored {R : Type} (a : ABIArgInfo R) : ABIArgInfo R :=
  { a with
    loc := match a.loc with
      | .regs rs => .regs rs
      | .mem o l => .mem (o % 2 ^ 32) l
    size := a.size % 2 ^ 32 }

def ABIFnInfo.storedBytes {R : Type} (f : ABIFnInfo R) : ℤ := (BitVec.ofNat 32 f.bytes).toInt

namespace SizeT

/-- The argument loop counts in an `int` and visits nothing when the number of arguments does not fit
one. -/
def visited (atypes : List FfiType) : List FfiType :=
  atypes.take (BitVec.ofNat 32 atypes.length).toInt.toNat

def myAaFiPrepCifCore (nfixedargs : ℕ) (rtype : FfiType) (atypes : List FfiType) :
    Option (ABIFnInfo AReg) :=
  (initializeType rtype).bind fun rtype =>
    (atypes.mapM initializeType).bind fun atypes =>
      myAaFiPrepCifMachdep nfixedargs rtype (visited atypes)

def myAaFiPrepCif (rtype : FfiType) (atypes : List FfiType) : Option (ABIFnInfo AReg) :=
  myAaFiPrepCifCore 0 rtype atypes

def myAaFiPrepCifVar (nfixed : ℕ) (rtype : FfiType) (atypes : List FfiType) :
    Option (ABIFnInfo AReg) :=
  if 1 ≤ nfixed ∧ nfixed ≤ atypes.length then myAaFiPrepCifCore nfixed rtype atypes else none

end SizeT

namespace ABIArgInfo

variable {R : Type} {a : ABIArgInfo R} {bytes : ℕ}

@[simp] theorem stored_regs : a.stored.regs = a.regs := by
  unfold stored regs
  cases a.loc <;> rfl

@[simp] theorem stored_teIsMem : a.stored.teIsMem = a.teIsMem := by
  unfold stored teIsMem
  cases a.loc <;> rfl

end ABIArgInfo

/-- Below `2 ^ 31` bytes the fields hold the offsets and sizes of the stack arguments. -/
theorem stored_of_lt {a : ABIArgInfo AReg} {bytes : ℕ} (hbytes : bytes < 2 ^ 31)
    (ha : ∀ o l, a.loc = .mem o l → o + a.stackExtent ≤ bytes) :
    a.stored.loc = a.loc ∧ (a.teIsMem → a.stored.stackExtent = a.stackExtent) := by
  cases hloc : a.loc with
  | regs rs =>
    refine ⟨by simp [stored, hloc], fun h => ?_⟩
    simp [teIsMem, hloc] at h
  | mem o l =>
    have hle := ha o l hloc
    refine ⟨?_, fun _ => ?_⟩
    · simp only [stored, hloc]
      rw [Nat.mod_eq_of_lt (by omega)]
    · cases hind : a.indirect with
      | true => simp [stackExtent, stored, hind]
      | false =>
        simp only [stackExtent, hind, Bool.false_eq_true, if_false] at hle
        simp only [stackExtent, stored, hind, Bool.false_eq_true, if_false]
        exact Nat.mod_eq_of_lt (by omega)

theorem toInt_ofNat_of_lt (h : n < 2 ^ 31) : (BitVec.ofNat 32 n).toInt = n := by
  rw [BitVec.toInt_eq_toNat_of_lt] <;> simp only [BitVec.toNat_ofNat]
  · rw [Nat.mod_eq_of_lt (by omega)]
  · omega

theorem storedBytes_of_lt {R : Type} {f : ABIFnInfo R} (h : f.bytes < 2 ^ 31) :
    f.storedBytes = f.bytes :=
  toInt_ofNat_of_lt h

theorem SizeT.visited_of_lt {atypes : List FfiType} (h : atypes.length < 2 ^ 31) :
    visited atypes = atypes := by
  unfold visited
  rw [toInt_ofNat_of_lt h, Int.toNat_natCast, take_length]

theorem AaLayout.stored {nfixed : ℕ} {ainfo : List (ABIArgInfo AReg)} {bytes : ℕ}
    (h : AaLayout nfixed ds ainfo bytes) (hbytes : bytes < 2 ^ 31) :
    AaLayout nfixed ds (ainfo.map stored) bytes := by
  have hstored : ∀ a ∈ ainfo, a.stored.loc = a.loc ∧
      (a.teIsMem → a.stored.stackExtent = a.stackExtent) := fun a ha =>
    stored_of_lt hbytes fun o l ho => by exact_mod_cast h.inside a ha o l ho
  have hextent : ∀ a ∈ ainfo, ∀ o l, a.loc = .mem o l → a.stored.stackExtent = a.stackExtent :=
    fun a ha o l ho => (hstored a ha).2 (by simp [teIsMem, ho])
  have hflat : (ainfo.map ABIArgInfo.stored).flatMap ABIArgInfo.regs =
      ainfo.flatMap regs := by
    rw [flatMap_map]
    simp
  refine ⟨by rw [length_map, h.length_eq], ?_, hflat ▸ h.once, ?_, ?_, ?_, ?_, ?_⟩
  · simpa using h.argReg
  · intro b hb hmem
    obtain ⟨a, ha, rfl⟩ := mem_map.mp hb
    rw [stored_teIsMem] at hmem
    rw [(hstored a ha).2 hmem]
    exact h.nonempty a ha hmem
  · intro b hb o l ho
    obtain ⟨a, ha, rfl⟩ := mem_map.mp hb
    rw [(hstored a ha).1] at ho
    rw [hextent a ha o l ho]
    exact h.inside a ha o l ho
  · rw [pairwise_map]
    refine h.increasing.imp_of_mem fun {a b} ha hb hab o l o' l' ho ho' => ?_
    rw [(hstored a ha).1] at ho
    rw [(hstored b hb).1] at ho'
    rw [hextent a ha o l ho]
    exact hab o l o' l' ho ho'
  · rw [zip_map_right, pairwise_map]
    simpa using h.closed
  · intro h0 i hi b hb
    rw [getElem?_map] at hb
    obtain ⟨a, ha, rfl⟩ := map_eq_some_iff.mp hb
    rw [(hstored a (mem_of_getElem? ha)).1]
    exact h.variadic h0 i hi a ha

theorem mapM_sized {tys : List FfiType} (htys : ∀ ty ∈ tys, ty.Parsed)
    (h : tys.mapM SizeT.initializeType = some ds) : ∀ d ∈ ds, d.Sized := by
  induction tys generalizing ds with
  | nil =>
    cases h
    simp
  | cons ty tys ih =>
    rw [mapM_cons] at h
    obtain ⟨d, hd, h⟩ := bind_eq_some_iff.mp h
    obtain ⟨ds', hds, h⟩ := bind_eq_some_iff.mp h
    cases h
    exact forall_mem_cons.mpr ⟨(htys ty mem_cons_self).sized hd,
      ih (forall_mem_cons.mp htys).2 hds⟩

theorem mapM_length {f : FfiType → Option FfiType} {tys : List FfiType}
    (h : tys.mapM f = some ds) : ds.length = tys.length := by
  induction tys generalizing ds with
  | nil =>
    cases h
    rfl
  | cons ty tys ih =>
    rw [mapM_cons] at h
    obtain ⟨d, -, h⟩ := bind_eq_some_iff.mp h
    obtain ⟨ds', hds, h⟩ := bind_eq_some_iff.mp h
    cases h
    rw [length_cons, length_cons, ih hds]

theorem aaLayout_core {nfixed : ℕ} {rtype : FfiType} {atypes : List FfiType} {info : ABIFnInfo AReg}
    (htys : ∀ ty ∈ atypes, ty.Parsed) (hnargs : atypes.length < 2 ^ 31)
    (h : SizeT.myAaFiPrepCifCore nfixed rtype atypes = some info) :
    ∃ ds, atypes.mapM SizeT.initializeType = some ds ∧ AaLayout nfixed ds info.ainfo info.bytes := by
  obtain ⟨d, -, h⟩ := bind_eq_some_iff.mp h
  obtain ⟨ds, hds, h⟩ := bind_eq_some_iff.mp h
  obtain ⟨flags, -, h⟩ := bind_eq_some_iff.mp h
  obtain ⟨⟨ainfo, al⟩, hargs, rfl⟩ := map_eq_some_iff.mp h
  rw [SizeT.visited_of_lt (by rwa [mapM_length hds])] at hargs
  exact ⟨ds, hds, aaLayout_aaArgs (mapM_sized htys hds) hargs⟩

/-- Both preparations give an ordered layout, as read from the 32-bit fields, if the stack arguments
stay below `2 ^ 31` bytes. -/
theorem aaLayout_prepared (nfixed : ℕ) (rtype : FfiType) (atypes : List FfiType)
    (info : ABIFnInfo AReg) (htys : ∀ ty ∈ atypes, ty.Parsed)
    (h : nfixed = 0 ∧ SizeT.myAaFiPrepCif rtype atypes = some info ∨
      SizeT.myAaFiPrepCifVar nfixed rtype atypes = some info)
    (hnargs : atypes.length < 2 ^ 31) (hbytes : info.bytes < 2 ^ 31) :
    ∃ ds, atypes.mapM SizeT.initializeType = some ds ∧
      AaLayout nfixed ds (info.ainfo.map stored) info.storedBytes := by
  have hcore : SizeT.myAaFiPrepCifCore nfixed rtype atypes = some info := by
    rcases h with ⟨rfl, h⟩ | h
    · exact h
    · obtain ⟨-, h⟩ := ite_none_right_eq_some.mp h
      exact h
  obtain ⟨ds, hds, hlayout⟩ := aaLayout_core htys hnargs hcore
  rw [storedBytes_of_lt hbytes]
  exact ⟨ds, hds, hlayout.stored hbytes⟩

theorem aaLayout_prepared_variadic :
    ∃ ds, [Scalar.pointer.ffi, Scalar.double.ffi, Scalar.sint32.ffi].mapM SizeT.initializeType =
        some ds ∧
      AaLayout 1 ds [{ loc := .regs [(.x 0, .noLocInfo)], size := 8 },
        { loc := .mem 0 .noLocInfo, size := 8 }, { loc := .mem 8 .noLocInfo, size := 4 }] 12 :=
  aaLayout_prepared 1 (.mk 1 1 .void []) [Scalar.pointer.ffi, Scalar.double.ffi, Scalar.sint32.ffi]
    { ainfo := [{ loc := .regs [(.x 0, .noLocInfo)], size := 8 },
        { loc := .mem 0 .noLocInfo, size := 8 }, { loc := .mem 8 .noLocInfo, size := 4 }]
      rinfo := {}, bytes := 12 }
    (by simp [Scalar.parsed]) (Or.inr rfl) (by decide) (by decide)

theorem aaArgs_append (nfixed : ℕ) (ds es : List FfiType) (i : ℕ) (al : AaAlloc) :
    aaArgs nfixed (ds ++ es) i al = (aaArgs nfixed ds i al).bind fun (as, al₁) =>
      (aaArgs nfixed es (i + ds.length) al₁).map fun (bs, al₂) => (as ++ bs, al₂) := by
  induction ds generalizing i al with
  | nil =>
    cases h : aaArgs nfixed es i al <;> simp [aaArgs, h]
  | cons d ds ih =>
    rw [List.cons_append, aaArgs, aaArgs]
    cases aaArg d al with
    | none => rfl
    | some r =>
      simp only [Option.bind_some, ih]
      rw [List.length_cons, show i + (ds.length + 1) = i + 1 + ds.length by omega]
      cases aaArgs nfixed ds (i + 1) _ with
      | none => rfl
      | some q =>
        simp only [Option.bind_some, Option.map_some, Option.map_map]
        rfl

/-- With the general registers used up, pointers take one stack word after the other. -/
theorem aaArgs_pointers (n i k : ℕ) :
    aaArgs 0 (replicate n Scalar.pointer.ffi) i { gprcount := 8, stackOffset := 8 * k } =
      some ((range n).map fun j => aaOnStack (8 * (k + j)) 8,
        { gprcount := 8, stackOffset := 8 * (k + n) }) := by
  induction n generalizing i k with
  | zero => rfl
  | succ n ih =>
    have hoff : ffiAlign (8 * k) 8 = 8 * k := by
      rw [ffiAlign_eight]
      omega
    have harg : aaArg Scalar.pointer.ffi { gprcount := 8, stackOffset := 8 * k } =
        some (aaOnStack (8 * k) 8, { gprcount := 8, stackOffset := 8 * (k + 1) }) := by
      have : aaArg Scalar.pointer.ffi { gprcount := 8, stackOffset := 8 * k } =
        some (aaOnStack (ffiAlign (8 * k) 8) 8,
          { gprcount := 8, stackOffset := ffiAlign (8 * k) 8 + 8 }) := rfl
      rw [this, hoff]
      rfl
    rw [replicate_succ, aaArgs, harg, bind_some]
    dsimp only
    rw [if_neg (Nat.succ_ne_zero i), ih, map_some, range_succ_eq_map, map_cons,
      List.map_map]
    refine congrArg some (Prod.ext (congrArg₂ _ rfl ?_) ?_)
    · refine map_congr_left fun j _ => ?_
      rw [Function.comp_apply, Nat.succ_eq_add_one, show k + 1 + j = k + (j + 1) by omega]
    · rw [show k + 1 + n = k + (n + 1) by omega]

theorem mapM_replicate (n : ℕ) (s : Scalar) :
    (replicate n s.ffi).mapM SizeT.initializeType = some (replicate n s.ffi) := by
  induction n with
  | zero => rfl
  | succ n ih =>
    have hs : SizeT.initializeType s.ffi = some s.ffi := if_neg s.size_pos.ne'
    rw [replicate_succ, mapM_cons, hs, ih]
    rfl

theorem prepared_pointers (hn : 8 + n < 2 ^ 31) :
    ∃ info, SizeT.myAaFiPrepCif (.mk 1 1 .void []) (replicate (8 + n) Scalar.pointer.ffi) =
        some info ∧ ∀ j < n, info.ainfo[8 + j]? = some (aaOnStack (8 * j) 8) := by
  have hargs := aaArgs_append 0 (replicate 8 Scalar.pointer.ffi)
    (replicate n Scalar.pointer.ffi) 0 {}
  have height : aaArgs 0 (replicate 8 Scalar.pointer.ffi) 0 {} =
    some ((range 8).map fun k => aaInRegs .x k 1 8, { gprcount := 8, stackOffset := 8 * 0 }) := rfl
  rw [← replicate_add, height, bind_some] at hargs
  dsimp only at hargs
  rw [aaArgs_pointers n _ 0, map_some] at hargs
  refine ⟨{ ainfo := ((range 8).map fun k => aaInRegs .x k 1 8) ++
      (range n).map fun j => aaOnStack (8 * (0 + j)) 8, rinfo := {}, bytes := 8 * (0 + n) }, ?_,
    fun j hj => ?_⟩
  · unfold SizeT.myAaFiPrepCif SizeT.myAaFiPrepCifCore
    rw [mapM_replicate]
    change (myAaFiPrepCifMachdep 0 (.mk 1 1 .void []) _) = _
    rw [SizeT.visited_of_lt (by simpa using hn)]
    unfold myAaFiPrepCifMachdep
    rw [hargs]
    rfl
  · simp only
    rw [getElem?_append_right (by simp)]
    simp [hj]

/-- With `2 ^ 29 + 1` pointers on the stack the last one is at offset `2 ^ 32`, which is stored as
zero, the offset of the first. -/
theorem aaLayout_overlap :
    ∃ info, SizeT.myAaFiPrepCif (.mk 1 1 .void [])
        (replicate (8 + (2 ^ 29 + 1)) Scalar.pointer.ffi) = some info ∧
      ¬ ∃ ds, (replicate (8 + (2 ^ 29 + 1)) Scalar.pointer.ffi).mapM SizeT.initializeType =
          some ds ∧ AaLayout 0 ds (info.ainfo.map stored) info.storedBytes := by
  have hn : 8 + (2 ^ 29 + 1) < 2 ^ 31 := by norm_num
  obtain ⟨info, hinfo, hat⟩ := prepared_pointers hn
  refine ⟨info, hinfo, ?_⟩
  rintro ⟨ds, -, hlayout⟩
  have hstored : ∀ j < 2 ^ 29 + 1, (info.ainfo.map stored)[8 + j]? =
      some (aaOnStack (8 * j % 2 ^ 32) 8) := by
    intro j hj
    rw [getElem?_map, hat j hj]
    rfl
  obtain ⟨h0, hfirst⟩ := List.getElem?_eq_some_iff.mp (hstored 0 (by norm_num))
  obtain ⟨h1, hlast⟩ := List.getElem?_eq_some_iff.mp (hstored (2 ^ 29) (by norm_num))
  have hle := pairwise_iff_getElem.mp hlayout.increasing _ _ h0 h1 (by norm_num)
  rw [hfirst, hlast] at hle
  have hbad := hle _ _ _ _ rfl rfl
  norm_num [stackExtent] at hbad

/-! ### Pointers that stand for large structs -/

/-- The descriptor of a struct that a pointer stands for. -/
structure FfiType.Large (d : FfiType) : Prop where
  struct : d.type = .struct
  vfp : isVfpType d = some 0
  size : 16 < d.size

theorem FfiType.Large.aaArg_eq {d : FfiType} (h : d.Large) (al : AaAlloc) : aaArg d al =
    some ({ loc := (al.passInGpr 1 d.alignment 8).1, size := d.size, indirect := true },
      (al.passInGpr 1 d.alignment 8).2) := by
  simp only [aaArg, h.struct, h.vfp, map_some, ne_eq, not_true_eq_false, if_false, gt_iff_lt, h.size,
    if_true]

theorem FfiType.Large.slot {d : FfiType} (h : d.Large) {al al' : AaAlloc} {info : ABIArgInfo AReg}
    (harg : aaArg d al = some (info, al')) {o : ℕ} {l : LocInfo} (hloc : info.loc = .mem o l) :
    o = al.memOffset d.alignment := by
  rw [h.aaArg_eq] at harg
  cases harg
  dsimp only [AaAlloc.passInGpr] at hloc
  split_ifs at hloc
  cases hloc
  rfl

theorem aaArgs_getElem {nfixed i k : ℕ} {al al' : AaAlloc} {info : ABIArgInfo AReg}
    (h : aaArgs nfixed ds i al = some (infos, al')) (hinfo : infos[k]? = some info) :
    ∃ d, ds[k]? = some d ∧ ∃ al₁ al₂, aaArg d al₁ = some (info, al₂) := by
  induction ds generalizing i k al infos with
  | nil =>
    cases h
    cases hinfo
  | cons d ds ih =>
    obtain ⟨info', infos', al₁, rfl, harg, hrest⟩ := aaArgs_cons h
    cases k with
    | zero =>
      cases hinfo
      exact ⟨d, rfl, al, al₁, harg⟩
    | succ k => exact ih hrest hinfo

/-- The slots for pointers to structs of one type are at multiples of eight in all argument lists if and
only if the struct itself has alignment eight. -/
theorem pointerSlot_aligned_iff {ty d : FfiType} (hty : ty.Parsed) (hd : SizeT.initializeType ty = some d)
    (hlarge : d.Large) :
    (∀ rtype pre post info a o l, SizeT.myAaFiPrepCif rtype (pre ++ ty :: post) = some info →
      info.ainfo[pre.length]? = some a → a.stored.loc = .mem o l → 8 ∣ o) ↔ d.alignment = 8 := by
  constructor
  · intro h
    have hargs : (replicate 8 Scalar.pointer.ffi ++ [Scalar.uint8.ffi] ++ [ty]).mapM SizeT.initializeType =
        some (replicate 8 Scalar.pointer.ffi ++ [Scalar.uint8.ffi] ++ [d]) := by
      rw [mapM_append, mapM_cons, hd]
      rfl
    -- eight pointers take the registers, and a byte the first byte of the stack
    have hslot := h (.mk 1 1 .void []) (replicate 8 Scalar.pointer.ffi ++ [Scalar.uint8.ffi]) []
      { ainfo := (range 8).map (fun k => aaInRegs .x k 1 8) ++
          [aaOnStack 0 1, { loc := .mem (ffiAlign 1 d.alignment) .noLocInfo, size := d.size, indirect := true }]
        rinfo := {}, bytes := ffiAlign 1 d.alignment + 8 } _ _ _ ?_ rfl rfl
    · rcases (hty.sized hd).alignment with hal | hal | hal | hal
      · rw [hal] at hslot
        exact absurd hslot (by decide)
      · rw [hal] at hslot
        exact absurd hslot (by decide)
      · rw [hal] at hslot
        exact absurd hslot (by decide)
      · exact hal
    · unfold SizeT.myAaFiPrepCif SizeT.myAaFiPrepCifCore
      rw [hargs]
      change (aaArgs 0 (replicate 8 Scalar.pointer.ffi ++ [Scalar.uint8.ffi] ++ [d]) 0 {}).map _ = _
      rw [aaArgs_append, show aaArgs 0 (replicate 8 Scalar.pointer.ffi ++ [Scalar.uint8.ffi]) 0 {} =
        some ((range 8).map (fun k => aaInRegs .x k 1 8) ++ [aaOnStack 0 1],
          { gprcount := 8, stackOffset := 1 }) from rfl, bind_some]
      dsimp only
      rw [aaArgs, hlarge.aaArg_eq]
      rfl
  · intro hal rtype pre post info a o l h ha hloc
    obtain ⟨d', -, h⟩ := bind_eq_some_iff.mp h
    obtain ⟨ds, hds, h⟩ := bind_eq_some_iff.mp h
    obtain ⟨flags, -, h⟩ := bind_eq_some_iff.mp h
    obtain ⟨⟨ainfo, al⟩, hargs, rfl⟩ := map_eq_some_iff.mp h
    obtain ⟨e, he, al₁, al₂, harg⟩ := aaArgs_getElem hargs ha
    rw [mapM_append, mapM_cons, hd] at hds
    obtain ⟨pre', hpre, hds⟩ := bind_eq_some_iff.mp hds
    obtain ⟨rest, hrest, hds⟩ := bind_eq_some_iff.mp hds
    obtain ⟨d₁, hd₁, hrest⟩ := bind_eq_some_iff.mp hrest
    obtain ⟨post', -, hrest⟩ := bind_eq_some_iff.mp hrest
    cases hd₁
    cases hrest
    cases hds
    have hed : e = d := by
      rw [SizeT.visited, getElem?_take] at he
      obtain ⟨-, he⟩ := ite_none_right_eq_some.mp he
      rw [← mapM_length hpre, getElem?_append_right le_rfl, Nat.sub_self] at he
      exact (Option.some.inj he).symm
    rw [hed] at harg
    cases hinfo : a.loc with
    | regs rs =>
      rw [stored, hinfo] at hloc
      cases hloc
    | mem o' l' =>
      rw [stored, hinfo] at hloc
      cases hloc
      rw [hlarge.slot harg hinfo, AaAlloc.memOffset, hal, ite_self, ffiAlign_eight]
      omega

/-- A struct of three doubles and a byte. -/
theorem pointerSlot_aligned_doubles :
    SizeT.initializeType (.mk 0 0 .struct (Scalar.uint8.ffi :: replicate 3 Scalar.double.ffi)) =
      some (.mk 32 8 .struct (Scalar.uint8.ffi :: replicate 3 Scalar.double.ffi)) ∧
    ∀ rtype pre post info a o l,
      SizeT.myAaFiPrepCif rtype (pre ++ .mk 0 0 .struct (Scalar.uint8.ffi :: replicate 3 Scalar.double.ffi) :: post) =
        some info → info.ainfo[pre.length]? = some a → a.stored.loc = .mem o l → 8 ∣ o :=
  ⟨rfl, (pointerSlot_aligned_iff (.table (by simp [Scalar.parsed])) rfl ⟨rfl, rfl, by decide⟩).mpr rfl⟩

theorem pointerSlot_misaligned : ∃ info,
    SizeT.myAaFiPrepCif (.mk 1 1 .void []) (replicate 8 Scalar.pointer.ffi ++
      [Scalar.uint8.ffi, .mk 0 0 .struct (replicate 5 Scalar.sint32.ffi)]) = some info ∧
    (info.ainfo[9]?.map fun a => a.stored) = some { loc := .mem 4 .noLocInfo, size := 20, indirect := true } :=
  ⟨_, rfl, rfl⟩

end Iqemu64
