import Iqemu64.Layout

/-!
# Registers of an x86-64 argument

The register list of an argument takes the next general and vector registers in the order of its
classes. The registers are different from each other and from those of earlier arguments.
-/

namespace Iqemu64
open List

theorem xxPieces_getElem? (info : LocInfo) (cs : List RegClass) (g v j : ℕ) (hj : j < cs.length) :
    ∃ r, (xxPieces info cs g v)[j]? = some r ∧
      ((∃ i, g ≤ i ∧ i < g + cs.countP (fun c => !c.isSse) ∧ r = (xxGpr i, info)) ∨
        ∃ i, v ≤ i ∧ i < v + cs.countP RegClass.isSse ∧ r = (.xmm i, .full)) := by
  induction cs generalizing g v j with
  | nil => simp at hj
  | cons c cs ih =>
    by_cases hc : c.isSse
    · simp only [xxPieces, hc, if_true, countP_cons, if_false]
      cases j with
      | zero => exact ⟨_, rfl, Or.inr ⟨v, by omega, by omega, rfl⟩⟩
      | succ j =>
        obtain ⟨r, hr, h⟩ := ih g (v + 1) j (by simpa using hj)
        refine ⟨r, hr, ?_⟩
        rcases h with ⟨i, h₁, h₂, h₃⟩ | ⟨i, h₁, h₂, h₃⟩
        · exact Or.inl ⟨i, h₁, by omega, h₃⟩
        · exact Or.inr ⟨i, by omega, by omega, h₃⟩
    · simp only [xxPieces, hc, countP_cons, Bool.not_false, if_true]
      cases j with
      | zero => exact ⟨_, rfl, Or.inl ⟨g, by omega, by omega, rfl⟩⟩
      | succ j =>
        obtain ⟨r, hr, h⟩ := ih (g + 1) v j (by simpa using hj)
        refine ⟨r, hr, ?_⟩
        rcases h with ⟨i, h₁, h₂, h₃⟩ | ⟨i, h₁, h₂, h₃⟩
        · exact Or.inl ⟨i, by omega, by omega, h₃⟩
        · exact Or.inr ⟨i, h₁, by omega, h₃⟩

theorem xxPieces_length (info : LocInfo) (cs : List RegClass) (g v : ℕ) :
    (xxPieces info cs g v).length = cs.length := by
  induction cs generalizing g v with
  | nil => rfl
  | cons c cs ih =>
    simp only [xxPieces]
    split_ifs <;> simp [ih]

theorem xxPieces_of_isSse (info : LocInfo) {cs : List RegClass} (h : ∀ c ∈ cs, c.isSse = true)
    (g v : ℕ) : xxPieces info cs g v = (range' v cs.length).map fun i => (.xmm i, .full) := by
  induction cs generalizing v with
  | nil => rfl
  | cons c cs ih =>
    have hc := h c mem_cons_self
    simp only [xxPieces, hc, if_true, length_cons, range'_succ, map_cons]
    rw [ih (forall_mem_cons.mp h).2]

theorem FlatType.countP_not_isSse (t : FlatType) :
    t.classes.countP (fun c => !c.isSse) = t.classes.countP RegClass.isGpr := by
  apply countP_congr
  intro c hc
  have h := t.classes_isArg c hc
  cases c <;> simp_all [RegClass.isGpr, RegClass.isSse]

theorem isXmm_xxGpr (g : ℕ) : (xxGpr g).isXmm = false := by
  by_cases hg : g < 6
  · interval_cases g <;> rfl
  · rw [xxGpr, getD_eq_getElem?_getD, getElem?_eq_none (by simpa [gprcnt2reg] using hg)]
    rfl

theorem xxGpr_injective : ∀ g < 6, ∀ g' < 6, xxGpr g = xxGpr g' → g = g' := by decide

theorem xxGpr_ne_xmm (g v : ℕ) : xxGpr g ≠ .xmm v := by
  intro heq
  have h := isXmm_xxGpr g
  rw [heq] at h
  exact absurd h (by simp [XReg.isXmm])

theorem mem_xxPieces {info : LocInfo} {cs : List RegClass} {g v : ℕ} {p : XReg × LocInfo}
    (hp : p ∈ xxPieces info cs g v) :
    (∃ i, g ≤ i ∧ i < g + cs.countP (fun c => !c.isSse) ∧ p = (xxGpr i, info)) ∨
      ∃ i, v ≤ i ∧ i < v + cs.countP RegClass.isSse ∧ p = (.xmm i, .full) := by
  obtain ⟨j, hj⟩ := mem_iff_getElem?.mp hp
  have hlt : j < cs.length := by
    rw [← xxPieces_length info cs g v]
    exact (List.getElem?_eq_some_iff.mp hj).1
  obtain ⟨r, hr, h⟩ := xxPieces_getElem? info cs g v j hlt
  rw [hj] at hr
  cases hr
  exact h

theorem xxPieces_pairwise (info : LocInfo) (cs : List RegClass) (g v : ℕ)
    (hg : g + cs.countP (fun c => !c.isSse) ≤ 6) :
    (xxPieces info cs g v).Pairwise fun p q => p.1 ≠ q.1 := by
  induction cs generalizing g v with
  | nil => exact List.Pairwise.nil
  | cons c cs ih =>
    by_cases hc : c.isSse
    · simp only [xxPieces, hc]
      simp only [countP_cons, hc] at hg
      refine pairwise_cons.mpr ⟨fun q hq => ?_, ih g (v + 1) hg⟩
      rcases mem_xxPieces hq with ⟨i, h₁, h₂, rfl⟩ | ⟨i, h₁, h₂, rfl⟩
      · exact (xxGpr_ne_xmm _ _).symm
      · simp only [ne_eq, XReg.xmm.injEq]
        omega
    · simp only [xxPieces, hc]
      simp only [countP_cons, hc, Bool.not_false, if_true] at hg
      refine pairwise_cons.mpr ⟨fun q hq => ?_, ih (g + 1) v (by omega)⟩
      rcases mem_xxPieces hq with ⟨i, h₁, h₂, rfl⟩ | ⟨i, h₁, h₂, rfl⟩
      · intro heq
        have := xxGpr_injective g (by omega) i (by omega) heq
        omega
      · exact xxGpr_ne_xmm _ _

theorem FlatType.classes_length_of_le {t : FlatType} (h16 : t.size ≤ 16) :
    t.classes.length = (t.size + 7) / 8 := by
  rw [t.classes_length, FlatType.wordCount, if_pos h16]

theorem teNumOfReg_xxInRegs {t : FlatType} {xl : XxAlloc} (hfits : t.XxFits xl) :
    (t.xxInRegs xl).teNumOfReg = (t.size + 7) / 8 := by
  simp [ABIArgInfo.teNumOfReg, ABIArgInfo.regs, xxPieces_length,
    FlatType.classes_length_of_le hfits.size]

def RegBetween (xl xl' : XxAlloc) (x : XReg) (info : LocInfo) : Prop :=
  (∃ i, xl.gprcount ≤ i ∧ i < xl'.gprcount ∧ i < 6 ∧ x = xxGpr i) ∨
    ∃ i, xl.ssecount ≤ i ∧ i < xl'.ssecount ∧ i < 8 ∧ x = .xmm i ∧ info = .full

theorem regBetween_of_mem {t : FlatType} {xl : XxAlloc} {p : XReg × LocInfo} (hfits : t.XxFits xl)
    (hp : p ∈ xxPieces t.locInfo t.classes xl.gprcount xl.ssecount) :
    RegBetween xl (t.xxAfterRegs xl) p.1 p.2 := by
  have hg := hfits.gpr
  have hv := hfits.sse
  have h := mem_xxPieces hp
  rw [t.countP_not_isSse] at h
  rcases h with ⟨i, h₁, h₂, rfl⟩ | ⟨i, h₁, h₂, rfl⟩
  · exact Or.inl ⟨i, h₁, h₂, by omega, rfl⟩
  · exact Or.inr ⟨i, h₁, h₂, by omega, rfl, rfl⟩

end Iqemu64
