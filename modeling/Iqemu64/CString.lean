import Mathlib.Algebra.Group.Int.Defs
import Mathlib.Data.List.TakeWhile

/-!
# C strings

A C string is the list of its characters without the terminating zero. A scanner returns where it
stopped, or how it failed.
-/

namespace CString
open List

/-- The check of a list of characters one by one: a statement about all characters of a list would
be decided over all characters there are. -/
theorem forall_mem_of_all {l : List Char} {p : Char → Prop} [DecidablePred p]
    (h : (l.all fun c => decide (p c)) = true) : ∀ c ∈ l, p c :=
  fun c hc => of_decide_eq_true (all_eq_true.mp h c hc)

inductive Fault where
  | abort
  | overread
  | unfinished
  deriving DecidableEq, Repr

abbrev Scan (α : Type) : Type := Except Fault α

variable {α β : Type}

@[simp] theorem ok_bind (a : α) (f : α → Scan β) : Except.bind (.ok a) f = f a := rfl

@[simp] theorem ok_map (a : α) (f : α → β) :
    Except.map f (.ok a : Scan α) = .ok (f a) := rfl

theorem exists_of_bind_ok {x : Scan α} {f : α → Scan β} {b : β}
    (h : Except.bind x f = .ok b) : ∃ a, x = .ok a ∧ f a = .ok b := by
  cases x with
  | error e => cases h
  | ok a => exact ⟨a, rfl, h⟩

theorem exists_of_map_ok {x : Scan α} {f : α → β} {b : β}
    (h : Except.map f x = .ok b) : ∃ a, x = .ok a ∧ f a = b := by
  cases x with
  | error e => cases h
  | ok a => exact ⟨a, rfl, Except.ok.inj h⟩

def Stops (p : Char → Bool) (rest : List Char) : Prop := ∀ c ∈ rest.head?, p c = false

theorem stops_nil (p : Char → Bool) : Stops p [] := fun _ h => nomatch h

variable {p : Char → Bool} {c : Char} {rest : List Char}

theorem stops_cons : Stops p (c :: rest) ↔ p c = false := by
  simp [Stops]

theorem Stops.dropWhile (h : Stops p rest) :
    rest.dropWhile p = rest := by
  cases rest with
  | nil => rfl
  | cons c rest => simp [stops_cons.mp h]

theorem Stops.takeWhile (h : Stops p rest) :
    rest.takeWhile p = [] := by
  cases rest with
  | nil => rfl
  | cons c rest => simp [stops_cons.mp h]

variable {w : List Char}

theorem dropWhile_append (hw : ∀ c ∈ w, p c = true)
    (h : Stops p rest) : (w ++ rest).dropWhile p = rest := by
  rw [dropWhile_append_of_pos hw, h.dropWhile]

theorem takeWhile_append (hw : ∀ c ∈ w, p c = true)
    (h : Stops p rest) : (w ++ rest).takeWhile p = w := by
  rw [takeWhile_append_of_pos hw, h.takeWhile, append_nil]

def skipPast (c : Char) : List Char → Scan (List Char)
  | [] => .error .overread
  | d :: s => if d = c then .ok s else skipPast c s

theorem skipPast_append (hw : c ∉ w) (rest : List Char) :
    skipPast c (w ++ c :: rest) = .ok rest := by
  induction w with
  | nil => simp [skipPast]
  | cons d w ih =>
    rw [mem_cons, not_or] at hw
    rw [cons_append, skipPast, if_neg (Ne.symm hw.1), ih hw.2]

def isSpace (c : Char) : Bool := c = ' ' || ('\t'.toNat ≤ c.toNat && c.toNat ≤ '\r'.toNat)

def isSign (c : Char) : Bool := c = '-' || c = '+'

def strtol (s : List Char) : ℤ × List Char :=
  let signed := s.dropWhile isSpace
  let negative := signed.head? = some '-'
  let digits := if (signed.head?.map isSign).getD false then signed.tail else signed
  let value : ℤ := Nat.ofDigitChars 10 (digits.takeWhile Char.isDigit) 0
  if digits.takeWhile Char.isDigit = [] then (0, s)
  else (max (-2 ^ 63) (min (2 ^ 63 - 1) (if negative then -value else value)),
    digits.dropWhile Char.isDigit)

def isNumeral (c : Char) : Bool := isSpace c || isSign c || c.isDigit

theorem isDigit_toNat (h : c.isDigit = true) : 48 ≤ c.toNat ∧ c.toNat ≤ 57 := by
  simp only [Char.isDigit, Bool.and_eq_true, decide_eq_true_eq] at h
  exact h

theorem isDigit_not_isSpace (h : c.isDigit = true) : isSpace c = false := by
  have hc := isDigit_toNat h
  have hblank : c ≠ ' ' := by
    rintro rfl
    exact absurd h (by decide)
  have hr : '\r'.toNat = 13 := rfl
  simp only [isSpace, hblank, decide_false, Bool.false_or, Bool.and_eq_false_iff,
    decide_eq_false_iff_not]
  omega

theorem isDigit_not_isSign (h : c.isDigit = true) : isSign c = false := by
  have hminus : c ≠ '-' := by
    rintro rfl
    exact absurd h (by decide)
  have hplus : c ≠ '+' := by
    rintro rfl
    exact absurd h (by decide)
  simp [isSign, hminus, hplus]

theorem strtol_digits {ds : List Char} (hds : ∀ c ∈ ds, c.isDigit = true) (hne : ds ≠ [])
    (hrest : Stops Char.isDigit rest) :
    strtol (ds ++ rest) = (min (2 ^ 63 - 1) (Nat.ofDigitChars 10 ds 0 : ℤ), rest) := by
  obtain ⟨d, ds, rfl⟩ := exists_cons_of_ne_nil hne
  have hd := hds d mem_cons_self
  have hspace : (d :: ds ++ rest).dropWhile isSpace = d :: ds ++ rest := by
    simp [isDigit_not_isSpace hd]
  have hminus : ¬ d = '-' := by
    rintro rfl
    exact absurd hd (by decide)
  unfold strtol
  rw [hspace]
  simp only [cons_append, head?_cons, Option.map_some, isDigit_not_isSign hd,
    Option.getD_some, Bool.false_eq_true, if_false, Option.some.injEq, hminus]
  rw [← cons_append, takeWhile_append hds hrest, dropWhile_append hds hrest, if_neg hne]
  congr 1
  omega

def decimal (n : ℕ) : List Char := Nat.toDigits 10 n

theorem isDigit_of_mem_decimal {n : ℕ} (h : c ∈ decimal n) : c.isDigit = true :=
  Nat.isDigit_of_mem_toDigits (by decide) le_rfl h

theorem strtol_decimal {n : ℕ} (hrest : Stops Char.isDigit rest) :
    strtol (decimal n ++ rest) = (min (2 ^ 63 - 1) (n : ℤ), rest) := by
  rw [strtol_digits (fun c hc => isDigit_of_mem_decimal hc) Nat.toDigits_ne_nil hrest, decimal,
    Nat.ofDigitChars_ten_toDigits]

theorem Stops.mono {q : Char → Bool} (h : Stops p rest)
    (hqp : ∀ c, p c = false → q c = false) : Stops q rest :=
  fun c hc => hqp c (h c hc)

theorem isNumeral_eq_false (h : isNumeral c = false) :
    isSpace c = false ∧ isSign c = false ∧ c.isDigit = false := by
  simpa only [isNumeral, Bool.or_eq_false_iff, and_assoc] using h

theorem Stops.digit (h : Stops isNumeral rest) : Stops Char.isDigit rest :=
  h.mono fun _ hc => (isNumeral_eq_false hc).2.2

theorem strtol_stops (h : Stops isNumeral rest) : strtol rest = (0, rest) := by
  have hspace : Stops isSpace rest := h.mono fun _ hc => (isNumeral_eq_false hc).1
  have hsign : (rest.head?.map isSign).getD false = false := by
    cases hr : rest.head? with
    | none => rfl
    | some c => exact (isNumeral_eq_false (h c hr)).2.1
  unfold strtol
  rw [hspace.dropWhile]
  simp only [hsign, Bool.false_eq_true, if_false]
  rw [h.digit.takeWhile, if_pos rfl]

inductive IsNumber : List Char → Prop
  | empty : IsNumber []
  | unsigned {ds : List Char} (hds : ∀ c ∈ ds, c.isDigit = true) (hne : ds ≠ []) : IsNumber ds
  | signed {c : Char} {ds : List Char} (hc : isSign c = true) (hds : ∀ c ∈ ds, c.isDigit = true)
      (hne : ds ≠ []) : IsNumber (c :: ds)

theorem strtol_signed {ds : List Char} (hc : isSign c = true)
    (hds : ∀ c ∈ ds, c.isDigit = true) (hne : ds ≠ []) (hrest : Stops Char.isDigit rest) :
    (strtol (c :: ds ++ rest)).2 = rest := by
  have hspace : isSpace c = false := by
    simp only [isSign, Bool.or_eq_true, decide_eq_true_eq] at hc
    rcases hc with rfl | rfl <;> rfl
  unfold strtol
  simp only [cons_append, dropWhile_cons, hspace, Bool.false_eq_true, if_false,
    head?_cons, Option.map_some, hc, Option.getD_some, if_true, tail_cons]
  rw [takeWhile_append hds hrest, dropWhile_append hds hrest, if_neg hne]

theorem strtol_number (hw : IsNumber w) (hrest : Stops isNumeral rest) :
    (strtol (w ++ rest)).2 = rest := by
  have hdigit : Stops Char.isDigit rest := hrest.digit
  cases hw with
  | empty => rw [nil_append, strtol_stops hrest]
  | unsigned hds hne => rw [strtol_digits hds hne hdigit]
  | signed hc hds hne => exact strtol_signed hc hds hne hdigit

end CString
