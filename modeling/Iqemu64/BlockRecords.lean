import Mathlib.Logic.Function.Basic
import Iqemu64.Runs

/-!
# Records of blocks behind implementations

`gImpBlockRecord` has a record for each implementation that was made from a guest block. The table is only
accessed under its lock, but `myimp_getBlock` hands the record out, and its users dereference it after the lock
has been released. Each step is a section under the lock or one dereference. Records are numbered in the order in
which they are allocated, so that a record at the address of a freed one is another record.
-/

namespace Iqemu64

/-- A thread outside of the functions below, or one with the record it was given, or no record, and the number of
times it will still dereference it. `marks` is the implementation for which `MygetMethodNoSuper_nolock` will
add a trampoline. -/
inductive RecordUser where
  | idle
  | uses (marks : Option ℕ) (record : Option ℕ) (left : ℕ)

structure RecordState where
  table : ℕ → Option ℕ
  next : ℕ
  marked : ℕ → Prop
  users : ℕ → RecordUser

inductive RecordAct where
  | implementationWithBlock (imp : ℕ)
  | removeBlock (imp : ℕ)
  | getMethodNoSuper (imp : ℕ)
  | getRealPc (imp : ℕ) (block : Bool)
  | dereference

namespace RecordState

def setUser (s : RecordState) (i : ℕ) (user : RecordUser) : RecordState :=
  { s with users := Function.update s.users i user }

inductive Step : RecordState → ℕ × RecordAct → RecordState → Prop
  | known {s : RecordState} {i imp record : ℕ} (hi : s.users i = .idle) (h : s.table imp = some record) :
      Step s (i, .implementationWithBlock imp) s
  | insert {s : RecordState} {i imp : ℕ} (hi : s.users i = .idle) (h : s.table imp = none) :
      Step s (i, .implementationWithBlock imp)
        { s with table := Function.update s.table imp (some s.next), next := s.next + 1 }
  /-- `g_hash_table_remove` frees the record. -/
  | remove {s : RecordState} {i imp : ℕ} (hi : s.users i = .idle) :
      Step s (i, .removeBlock imp) { s with table := Function.update s.table imp none }
  | native {s : RecordState} {i imp : ℕ} (hi : s.users i = .idle) (h : s.table imp = none) :
      Step s (i, .getMethodNoSuper imp) s
  /-- The record is read for the block's signature, for its `invoke` and for `orig_invoke`. -/
  | method {s : RecordState} {i imp record : ℕ} (hi : s.users i = .idle) (h : s.table imp = some record) :
      Step s (i, .getMethodNoSuper imp) (s.setUser i (.uses (some imp) (some record) 3))
  /-- `objc_get_real_pc` on a trampoline with `OBJC_ARM_BLOCK_MARK`. -/
  | realPc {s : RecordState} {i imp : ℕ} {block : Bool} (hi : s.users i = .idle) (h : s.marked imp) :
      Step s (i, .getRealPc imp block) (s.setUser i (.uses none (s.table imp) (if block then 2 else 1)))
  | use {s : RecordState} {i left : ℕ} {marks record : Option ℕ}
      (hi : s.users i = .uses marks record (left + 2)) :
      Step s (i, .dereference) (s.setUser i (.uses marks record (left + 1)))
  | lastUse {s : RecordState} {i : ℕ} {marks record : Option ℕ} (hi : s.users i = .uses marks record 1) :
      Step s (i, .dereference)
        { s.setUser i .idle with marked := fun imp => s.marked imp ∨ marks = some imp }

/-- No records and no users. -/
def start : RecordState := ⟨fun _ => none, 0, fun _ => False, fun _ => .idle⟩

/-- A record that has been allocated and not freed. -/
def Live (s : RecordState) (record : ℕ) : Prop := ∃ imp, s.table imp = some record

/-- Every record that is still to be dereferenced exists. -/
def Safe (s : RecordState) : Prop :=
  ∀ i marks record left, s.users i = .uses marks record left → ∃ r, record = some r ∧ s.Live r

/-- A record is removed while no thread has it, and real addresses are asked for while there is a record. -/
def Careful (s : RecordState) : ℕ × RecordAct → Prop
  | (_, .removeBlock imp) =>
    ∀ r, s.table imp = some r → ∀ i marks left, s.users i ≠ .uses marks (some r) left
  | (_, .getRealPc imp _) => s.table imp ≠ none
  | _ => True

/-- Each record belongs to one implementation. -/
structure Tidy (s : RecordState) : Prop where
  inj : ∀ {imp imp' r}, s.table imp = some r → s.table imp' = some r → imp = imp'
  fresh : ∀ {imp r}, s.table imp = some r → r < s.next

variable {s t : RecordState} {i : ℕ} {e : ℕ × RecordAct}

theorem Tidy.step (h : s.Tidy) (ht : Step s e t) : t.Tidy := by
  cases ht with
  | @insert i imp hi hnone =>
    have hcases : ∀ {k r}, Function.update s.table imp (some s.next) k = some r →
        k = imp ∧ r = s.next ∨ s.table k = some r ∧ r < s.next := by
      intro k r hk
      by_cases heq : k = imp
      · subst heq
        rw [Function.update_self] at hk
        exact Or.inl ⟨rfl, (Option.some.inj hk).symm⟩
      · rw [Function.update_of_ne heq] at hk
        exact Or.inr ⟨hk, h.fresh hk⟩
    refine ⟨fun hk hk' => ?_, fun hk => ?_⟩
    · rcases hcases hk with ⟨rfl, rfl⟩ | ⟨hold, hlt⟩ <;> rcases hcases hk' with ⟨rfl, heq⟩ | ⟨hold', hlt'⟩
      · rfl
      · omega
      · omega
      · exact h.inj hold hold'
    · rcases hcases hk with ⟨-, rfl⟩ | ⟨-, hlt⟩
      · exact Nat.lt_succ_self _
      · exact Nat.lt_succ_of_lt hlt
  | remove hi =>
    have hold : ∀ {imp k r}, Function.update s.table imp none k = some r → s.table k = some r := by
      intro imp k r hk
      by_cases heq : k = imp
      · rw [heq, Function.update_self] at hk
        exact nomatch hk
      · rwa [Function.update_of_ne heq] at hk
    exact ⟨fun hk hk' => h.inj (hold hk) (hold hk'), fun hk => h.fresh (hold hk)⟩
  | _ => exact ⟨h.inj, h.fresh⟩

/-- A thread that begins to use a record is safe if and only if there is one. -/
theorem safe_setUser_iff (h : s.Safe) {marks record : Option ℕ} {left : ℕ} :
    (s.setUser i (.uses marks record left)).Safe ↔ ∃ r, record = some r ∧ s.Live r := by
  refine ⟨fun ht => ht i marks record left (Function.update_self _ _ _), fun hr j marks' record' left' hj => ?_⟩
  by_cases hji : j = i
  · subst hji
    obtain ⟨rfl, rfl, rfl⟩ : marks = marks' ∧ record = record' ∧ left = left' := by simpa [setUser] using hj
    exact hr
  · exact h j marks' record' left' ((Function.update_of_ne hji _ _).symm.trans hj)

theorem safe_step_iff (h : s.Safe) (htidy : s.Tidy) (ht : Step s e t) : t.Safe ↔ s.Careful e := by
  cases ht with
  | known hi hr => exact iff_of_true h trivial
  | native hi hnone => exact iff_of_true h trivial
  | @insert i imp hi hnone =>
    refine iff_of_true (fun j marks record left hj => ?_) trivial
    obtain ⟨r, hr, k, hk⟩ := h j marks record left hj
    have hne : k ≠ imp := by
      rintro rfl
      exact nomatch hnone.symm.trans hk
    exact ⟨r, hr, k, (Function.update_of_ne hne _ _).trans hk⟩
  | @remove _ imp hi =>
    constructor
    · intro ht r hr j marks left hj
      obtain ⟨r', hr', k, hk⟩ := ht j marks (some r) left hj
      cases hr'
      by_cases hki : k = imp
      · rw [hki] at hk
        exact nomatch (Function.update_self imp none s.table).symm.trans hk
      · exact hki (htidy.inj ((Function.update_of_ne hki _ _).symm.trans hk) hr)
    · intro hcareful j marks record left hj
      obtain ⟨r, rfl, k, hk⟩ := h j marks record left hj
      have hki : k ≠ imp := by
        rintro rfl
        exact hcareful r hk j marks left hj
      exact ⟨r, rfl, k, (Function.update_of_ne hki _ _).trans hk⟩
  | @method _ imp record hi hr => exact (safe_setUser_iff h).trans (iff_of_true ⟨record, rfl, imp, hr⟩ trivial)
  | @realPc _ imp block hi hmarked =>
    refine (safe_setUser_iff h).trans ⟨fun ⟨r, hr, _⟩ hnone => ?_, fun hsome => ?_⟩
    · exact nomatch hnone.symm.trans hr
    · obtain ⟨r, hr⟩ := Option.ne_none_iff_exists'.mp hsome
      exact ⟨r, hr, imp, hr⟩
  | use hi => exact (safe_setUser_iff h).trans (iff_of_true (h _ _ _ _ hi) trivial)
  | @lastUse i marks record hi =>
    refine iff_of_true (fun j marks' record' left' hj => ?_) trivial
    change Function.update s.users i .idle j = _ at hj
    by_cases hji : j = i
    · rw [hji, Function.update_self] at hj
      exact nomatch hj
    · exact h j marks' record' left' ((Function.update_of_ne hji _ _).symm.trans hj)

end RecordState

end Iqemu64
