import Iqemu64.PageFlags
import Iqemu64.Runs

/-!
# Write protection of translated code

A page with translated code is write-protected together with the other guest pages of its host page. The
first write to it gives the permission back to all of them.
-/

namespace Iqemu64
open List

namespace PageMap
variable {C : PageTableConfig} (I : Invalidation C) (j : ℕ)

/-- The guest pages of a host page, which has `2 ^ j` of them. -/
def hostPages (index : ℕ) : List ℕ := (range (2 ^ j)).map (index / 2 ^ j * 2 ^ j + ·)

def clearWrite (m : PageMap C) (index : ℕ) : PageMap C :=
  match m.pageFind index with
  | none => m
  | some p => m.setDesc index { p with flags := p.flags &&& ~~~pageWrite.setWidth 64 }

/-- `tb_page_add` for the page with this index. -/
def tbPageAdd (m : PageMap C) (index : ℕ) (firstTb : BitVec 64) : Option (PageMap C) :=
  (m.pageFind index).map fun p =>
    let m := m.setDesc index { p with firstTb }
    if p.flags.getLsbD 1 then (hostPages j index).foldl clearWrite m else m

/-- One turn of the loop in `page_unprotect`. A page without a descriptor is not checked for. -/
def setWrite (m : PageMap C) (index : ℕ) : Option (PageMap C) :=
  (m.pageFind index).map fun p =>
    let m := m.setDesc index { p with flags := p.flags ||| pageWrite.setWidth 64 }
    m.setFirstTbs (I m (index * C.pageSize))

def pageUnprotect (m : PageMap C) (index : ℕ) : Option (PageMap C) :=
  match m.pageFind index with
  | none => some m
  | some p =>
    if p.flags.getLsbD 4 ∧ ¬ p.flags.getLsbD 1 then (hostPages j index).foldlM (setWrite I) m else some m

inductive FlagsEvent where
  | setFlags (c : FlagsCall)
  | tbPageAdd (index : ℕ) (firstTb : BitVec 64)
  | unprotect (index : ℕ)

def step (m : PageMap C) : FlagsEvent → Option (PageMap C)
  | .setFlags c => m.pageSetFlags I c.start c.stop c.flags
  | .tbPageAdd index firstTb => m.tbPageAdd j index firstTb
  | .unprotect index => m.pageUnprotect I j index

/-- Write permission only where it has been asked for. -/
def WriteOrg (m : PageMap C) : Prop := ∀ k, (m.flagsOf k).getLsbD 1 = true → (m.flagsOf k).getLsbD 4 = true

/-- Where write permission is given back, all guest pages of the host page have had it. -/
def Restores (m : PageMap C) : FlagsEvent → Prop
  | .unprotect index => (m.flagsOf index).getLsbD 4 = true → (m.flagsOf index).getLsbD 1 = false →
    ∀ k ∈ hostPages j index, (m.flagsOf k).getLsbD 4 = true
  | _ => True

/-- The table has one descriptor for both pages. -/
abbrev Same (C : PageTableConfig) (i k : ℕ) : Prop :=
  i % 2 ^ RadixTable.bits C.vL1Bits C.lowerWidths = k % 2 ^ RadixTable.bits C.vL1Bits C.lowerWidths

variable {I j} {m m' : PageMap C} {i k : ℕ} {p q : PageDesc}

theorem flagsOf_congr (h : Same C i k) : m.flagsOf i = m.flagsOf k := by
  rw [flagsOf, flagsOf, desc, desc, RadixTable.lookup, RadixTable.lookup, RadixTable.find_congr m h]

theorem flagsOf_setDesc (h : m.pageFind i = some p) :
    (m.setDesc i q).flagsOf k = if Same C i k then q.flags else m.flagsOf k := by
  rw [flagsOf, desc, setDesc, RadixTable.lookup_write noPage m q (Option.isSome_of_eq_some h)]
  split
  · rfl
  · rfl

/-- Write permission is taken away and nothing else changes that matters. -/
def Protects (m m' : PageMap C) : Prop :=
  ∀ k, ((m'.flagsOf k).getLsbD 1 = true → (m.flagsOf k).getLsbD 1 = true) ∧
    (m'.flagsOf k).getLsbD 4 = (m.flagsOf k).getLsbD 4

theorem protects_clearWrite (m : PageMap C) (i : ℕ) : Protects m (m.clearWrite i) := by
  intro k
  rw [clearWrite]
  cases hp : m.pageFind i with
  | none => exact ⟨id, rfl⟩
  | some p =>
    dsimp only
    rw [flagsOf_setDesc hp]
    split_ifs with hik
    · rw [← flagsOf_congr hik, flagsOf, pageFind_isSome_desc hp]
      refine ⟨fun h => ?_, ?_⟩
      · simp [pageWrite] at h
      · simp [pageWrite]
    · exact ⟨id, rfl⟩

theorem protects_foldl (l : List ℕ) (m : PageMap C) : Protects m (l.foldl clearWrite m) := by
  induction l generalizing m with
  | nil => exact fun k => ⟨id, rfl⟩
  | cons i l ih =>
    intro k
    have hone := protects_clearWrite m i k
    have hrest := ih (m.clearWrite i) k
    exact ⟨fun h => hone.1 (hrest.1 h), hrest.2.trans hone.2⟩

theorem write_setWrite (h : m.setWrite I i = some m') (k : ℕ) :
    ((m'.flagsOf k).getLsbD 1 = true ↔ (m.flagsOf k).getLsbD 1 = true ∨ Same C i k) ∧
      (m'.flagsOf k).getLsbD 4 = (m.flagsOf k).getLsbD 4 := by
  obtain ⟨p, hp, rfl⟩ := Option.map_eq_some_iff.mp h
  dsimp only
  rw [flagsOf_setFirstTbs, flagsOf_setDesc hp]
  split_ifs with hik
  · rw [← flagsOf_congr hik, flagsOf, pageFind_isSome_desc hp]
    refine ⟨iff_of_true ?_ (Or.inr hik), ?_⟩
    · simp [pageWrite]
    · simp [pageWrite]
  · simp [hik]

theorem write_foldlM {l : List ℕ} (h : l.foldlM (setWrite I) m = some m') (k : ℕ) :
    ((m'.flagsOf k).getLsbD 1 = true ↔ (m.flagsOf k).getLsbD 1 = true ∨ ∃ i ∈ l, Same C i k) ∧
      (m'.flagsOf k).getLsbD 4 = (m.flagsOf k).getLsbD 4 := by
  induction l generalizing m with
  | nil =>
    cases h
    simp
  | cons i l ih =>
    rw [foldlM_cons] at h
    obtain ⟨u, hu, h⟩ := Option.bind_eq_some_iff.mp h
    obtain ⟨hwrite, horg⟩ := ih h
    obtain ⟨hwrite', horg'⟩ := write_setWrite hu k
    refine ⟨?_, horg.trans horg'⟩
    rw [hwrite, hwrite', or_assoc]
    simp only [mem_cons, exists_eq_or_imp]

theorem writeOrg_pageSetFlags (hC : C.Valid) (h : WriteOrg m) {c : FlagsCall}
    (hm' : m.pageSetFlags I c.start c.stop c.flags = some m') : WriteOrg m' := by
  obtain ⟨hrange, hm'⟩ := Option.ite_none_right_eq_some.mp hm'
  cases hm'
  intro k
  have hbits := bits_eq hC
  have hpos : 0 < 2 ^ (C.addrSpaceBits - C.pageBits) := Nat.two_pow_pos _
  have hfirst : c.start / C.pageSize ≤ (c.stop + C.pageSize - 1) / C.pageSize :=
    Nat.div_le_div_right (by have := Nat.two_pow_pos C.pageBits; unfold PageTableConfig.pageSize; omega)
  rw [flagsOf_congr (i := k) (k := k % 2 ^ (C.addrSpaceBits - C.pageBits)) (by rw [Same, hbits, Nat.mod_mod]),
    flagsOf_setFlagsLoop I hC _ _ _ _ (by have := pageIndex_le hC hrange.1; omega) (Nat.mod_lt k hpos)]
  split_ifs
  · rw [BitVec.getLsbD_signExtend, BitVec.getLsbD_signExtend, getLsbD_storedFlags, getLsbD_storedFlags]
    simpa using Or.inr
  · exact h _

/-- A step keeps the pages' permissions if and only if it restores no more than has been taken away. -/
theorem writeOrg_step_iff (hC : C.Valid) (h : WriteOrg m) {e : FlagsEvent} (hm' : m.step I j e = some m') :
    WriteOrg m' ↔ Restores j m e := by
  cases e with
  | setFlags c => exact iff_of_true (writeOrg_pageSetFlags hC h hm') trivial
  | tbPageAdd index firstTb =>
    obtain ⟨p, hp, rfl⟩ := Option.map_eq_some_iff.mp hm'
    refine iff_of_true (fun k hk => ?_) trivial
    have hadd (k) : (m.setDesc index { p with firstTb }).flagsOf k = m.flagsOf k := by
      rw [flagsOf_setDesc hp]
      split_ifs with hik
      · rw [← flagsOf_congr hik, flagsOf, pageFind_isSome_desc hp]
      · rfl
    dsimp only at hk ⊢
    split_ifs at hk ⊢
    · have hprot := protects_foldl (hostPages j index) (m.setDesc index { p with firstTb }) k
      rw [hadd] at hprot
      rw [hprot.2]
      exact h k (hprot.1 hk)
    · rw [hadd] at hk ⊢
      exact h k hk
  | unprotect index =>
    change m.pageUnprotect I j index = some m' at hm'
    rw [pageUnprotect] at hm'
    cases hp : m.pageFind index with
    | none =>
      rw [hp] at hm'
      cases hm'
      refine iff_of_true h fun horg => ?_
      rw [flagsOf, desc, RadixTable.lookup, show RadixTable.find m index = none from hp] at horg
      exact absurd horg (by decide)
    | some p =>
      have hflags : m.flagsOf index = p.flags := congrArg PageDesc.flags (pageFind_isSome_desc hp)
      rw [hp] at hm'
      dsimp only [Restores] at hm' ⊢
      rw [hflags]
      split_ifs at hm' with hcond
      · have hwrite := write_foldlM hm'
        refine ⟨fun h' _ _ k hk => ?_, fun hall k hk => ?_⟩
        · rw [← (hwrite k).2]
          exact h' k ((hwrite k).1.mpr (Or.inr ⟨k, hk, rfl⟩))
        · rw [(hwrite k).2]
          rcases (hwrite k).1.mp hk with hk | ⟨i, hi, hik⟩
          · exact h k hk
          · rw [← flagsOf_congr hik]
            exact hall hcond.1 (Bool.eq_false_iff.mpr hcond.2) i hi
      · cases hm'
        exact iff_of_true h fun horg hwrite => absurd ⟨horg, Bool.eq_false_iff.mp hwrite⟩ hcond

end PageMap

end Iqemu64
