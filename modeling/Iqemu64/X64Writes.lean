import Iqemu64.Transfer
import Iqemu64.X64Frame

/-!
# Addresses that straight-line code writes

`Written` collects the bytes that the executed instructions of a program store to. A program that
faults has written what the instructions before the fault store. Bytes that are not written keep their
values in every state that the program passes through.
-/

namespace X64
open ByteMemory List Transfer

variable {F S : Type} (E : Externals F S)

def Insn.Writes : Insn F S → State → ℕ → Prop
  | .st _ base ofs, s, a => s.ea base ofs ≤ a ∧ a < s.ea base ofs + 8
  | .st32 _ base ofs, s, a => s.ea base ofs ≤ a ∧ a < s.ea base ofs + 4
  | .movapsSt _ base ofs, s, a => s.ea base ofs ≤ a ∧ a < s.ea base ofs + 16
  | .push _, s, a => (s.gpr .rsp - 8).toNat ≤ a ∧ a < (s.gpr .rsp - 8).toNat + 8
  | .repMovsb, s, a => (s.gpr .rdi).toNat ≤ a ∧ a < (s.gpr .rdi).toNat + (s.gpr .rcx).toNat
  | .call f, s, a => (E.ext f s).mem a ≠ s.mem a
  | _, _, _ => False

def Written : List (Insn F S) → State → ℕ → Prop
  | [], _, _ => False
  | i :: code, s, a => ∃ t, i.step E s = some t ∧ (i.Writes E s a ∨ Written code t a)

variable {E}

variable {s t : State} {a : ℕ}

theorem Insn.step_mem {i : Insn F S} (h : i.step E s = some t)
    (ha : ¬ i.Writes E s a) : t.mem a = s.mem a := by
  cases i
  case st | st32 | push =>
    cases h
    exact Mem.storeWord_outside _ _ _ _ a (by simp only [Writes] at ha; omega)
  case repMovsb =>
    cases h
    exact Mem.copyForward_outside _ _ _ _ a (by simp only [Writes] at ha; omega)
  case call f =>
    cases h
    exact not_not.mp ha
  case movapsLd =>
    simp only [step, Option.ite_none_right_eq_some] at h
    obtain rfl := Option.some.inj h.2
    rfl
  case movapsSt =>
    simp only [step, Option.ite_none_right_eq_some] at h
    obtain rfl := Option.some.inj h.2
    exact Mem.write_outside _ _ _ _ a (by simp only [Writes] at ha; omega)
  all_goals
    cases h
    rfl

theorem written_cons {i : Insn F S} {code : List (Insn F S)}
    (h : i.step E s = some t) : Written E (i :: code) s a ↔ i.Writes E s a ∨ Written E code t a := by
  simp [Written, h]

theorem written_append {c₁ c₂ : List (Insn F S)} :
    Written E (c₁ ++ c₂) s a ↔
      Written E c₁ s a ∨ ∃ t, run E c₁ s = some t ∧ Written E c₂ t a := by
  induction c₁ generalizing s with
  | nil => simp [Written]
  | cons i code ih =>
    simp only [cons_append, run_cons, Written]
    cases i.step E s with
    | none => simp
    | some t => simp [ih, or_assoc]

theorem mem_of_not_written {code before after : List (Insn F S)}
    (hcode : code = before ++ after) (hrun : run E before s = some t) (ha : ¬ Written E code s a) :
    t.mem a = s.mem a := by
  subst hcode
  induction before generalizing s with
  | nil =>
    cases hrun
    rfl
  | cons i code ih =>
    obtain ⟨u, hu, hrun⟩ := Option.bind_eq_some_iff.mp ((run_cons E i code s).symm.trans hrun)
    rw [cons_append, written_cons hu, not_or] at ha
    rw [ih hrun ha.2, i.step_mem hu ha.1]

theorem not_written_of_avoids {v : Gpr → BitVec 64} {K : List Gpr} {P : ℕ → Prop}
    {code : List (Insn F S)} (hcode : ∀ i ∈ code, i.Avoids v K P)
    (hs : ∀ r ∈ K, s.gpr r = v r) (ha : P a) : ¬ Written E code s a := by
  induction code generalizing s with
  | nil => exact id
  | cons i code ih =>
    have hi := hcode i mem_cons_self
    rintro ⟨t, ht, hw | hw⟩
    swap
    · have hkept : Kept v K P s.mem t := Insn.step_kept hi ⟨hs, fun _ _ => rfl⟩ ht
      exact ih (forall_mem_cons.mp hcode).2 hkept.gpr hw
    cases i
    case st _ base ofs | st32 _ base ofs | movapsSt _ base ofs =>
      simp only [Insn.Writes, State.ea, hs base hi.1] at hw
      obtain ⟨k, rfl⟩ := Nat.exists_eq_add_of_le hw.1
      exact hi.2 k (by omega) ha
    case push | repMovsb | call => exact hi
    all_goals exact hw

def Transfer.Covers (t : Transfer) (s : State) (a : ℕ) : Prop :=
  s.ea t.dstBase t.dst ≤ a ∧ a < s.ea t.dstBase t.dst + t.width.bytes

theorem Transfer.written_code {t : Transfer} (hb : t.Based) :
    Written E t.code s a ↔ t.Aligned s ∧ t.Covers s a := by
  unfold code Transfer.Aligned Transfer.Covers
  cases hw : t.width with
  | half => simp [Written, Insn.step, Insn.Writes, State.ea, hb.2, Width.bytes]
  | word => simp [Written, Insn.step, Insn.Writes, State.ea, hb.2, Width.bytes]
  | wide =>
    have hea : ∀ f, (s.setXmm 0 f).ea t.dstBase t.dst = s.ea t.dstBase t.dst := fun _ => rfl
    by_cases hsrc : s.ea t.srcBase t.src % 16 = 0
    · by_cases hdst : s.ea t.dstBase t.dst % 16 = 0
      · simp [Written, Insn.step, hsrc, Insn.Writes, hea, hdst, Width.bytes]
      · simp [Written, Insn.step, hsrc, Insn.Writes, hea, hdst]
    · simp [Written, Insn.step, hsrc, Insn.Writes]

theorem Transfer.covers_congr {t : Transfer} (hb : t.Based) {u : State}
    (h : ∀ r, r ≠ .rax → u.gpr r = s.gpr r) : t.Covers u a ↔ t.Covers s a := by
  simp only [Transfer.Covers, State.ea, h _ hb.2]

/-- A list of transfers writes what they cover, up to the first one that is not aligned. -/
theorem written_transfers {ts : List Transfer} (hb : ∀ t ∈ ts, t.Based) :
    Written E (ts.flatMap code) s a ↔ ∃ before t after, ts = before ++ t :: after ∧
      (∀ u ∈ before, u.Aligned s) ∧ t.Aligned s ∧ t.Covers s a := by
  induction ts generalizing s with
  | nil => simp [Written]
  | cons t ts ih =>
    have ht := hb t mem_cons_self
    have hts : ∀ u ∈ ts, u.Based := fun u hu => hb u (mem_cons_of_mem t hu)
    obtain ⟨hok, hspec⟩ := run_code E (s := s) ht
    rw [flatMap_cons, written_append, written_code ht]
    constructor
    · rintro (⟨hal, hcov⟩ | ⟨u, hu, hw⟩)
      · exact ⟨[], t, ts, rfl, by simp, hal, hcov⟩
      · have hal : t.Aligned s := hok.mp (by rw [hu]; exact Option.some_ne_none u)
        have hgpr := (hspec u hu).2
        obtain ⟨before, t', after, rfl, hbefore, hal', hcov⟩ := (ih hts).mp hw
        have ht' := hts t' (by simp)
        refine ⟨t :: before, t', after, rfl, forall_mem_cons.mpr ⟨hal, fun x hx => ?_⟩,
          (aligned_congr ht' hgpr).mp hal', (covers_congr ht' hgpr).mp hcov⟩
        exact (aligned_congr (hts x (by simp [hx])) hgpr).mp (hbefore x hx)
    · rintro ⟨before, t', after, heq, hbefore, hal', hcov⟩
      cases before with
      | nil =>
        obtain ⟨rfl, rfl⟩ := List.cons.inj heq
        exact Or.inl ⟨hal', hcov⟩
      | cons t₀ before =>
        obtain ⟨rfl, rfl⟩ := List.cons.inj heq
        obtain ⟨hal, hbefore⟩ := forall_mem_cons.mp hbefore
        obtain ⟨u, hu⟩ := Option.ne_none_iff_exists'.mp (hok.mpr hal)
        have hgpr := (hspec u hu).2
        have ht' := hts t' (by simp)
        refine Or.inr ⟨u, hu, (ih hts).mpr ⟨before, t', after, rfl, fun x hx => ?_,
          (aligned_congr ht' hgpr).mpr hal', (covers_congr ht' hgpr).mpr hcov⟩⟩
        exact (aligned_congr (hts x (by simp [hx])) hgpr).mpr (hbefore x hx)

end X64
