import Mathlib.Data.List.Basic
import Mathlib.Data.Set.Function
import Iqemu64.CString

/-!
# Fake names and structs with function pointers

A callback that a host function gets as an argument or returns is registered under a name that is made
of the name of the function and the index of the argument. A callback in a field of a struct has the
offset of the field in front of them. `tcg_register_struct_with_fn_ptr` registers the function pointers
of a struct, and is meant to go on to the structs that its fields point to.
-/

namespace Iqemu64
open CString

inductive ArgPlace where
  | ret
  | arg (i : Fin 63)
  deriving DecidableEq

def ArgPlace.text : ArgPlace → List Char
  | ret => ['-', '1']
  | arg i => decimal i

def FunctionName : Type := { fn : List Char // fn.head?.map Char.isDigit = some false }

/-- What a fake name stands for: the offset of a field, if it is one, the function and the argument. -/
structure FakeKey where
  offset : Option ℕ
  fn : FunctionName
  place : ArgPlace

def fakeName (k : FakeKey) : List Char :=
  match k.offset with
  | none => '0' :: (k.fn.1 ++ k.place.text)
  | some offset => '1' :: (decimal offset ++ (k.fn.1 ++ k.place.text))

def tens : List Char := ['-', '1', '2', '3', '4', '5', '6']

theorem decimal_injective : Function.Injective decimal := fun m n h => by
  simpa [decimal, Nat.ofDigitChars_toDigits] using congrArg (Nat.ofDigitChars 10 · 0) h

namespace ArgPlace
variable {p q : ArgPlace} {f g : List Char}

theorem ret_ne (i : Fin 63) : ret.text ≠ (arg i).text := fun h => by
  have hmem : '-' ∈ (arg i).text := h ▸ List.mem_cons_self
  exact absurd (isDigit_of_mem_decimal hmem) (by decide)

theorem text_injective : Function.Injective text := by
  intro p q h
  cases p with
  | ret =>
    cases q with
    | ret => rfl
    | arg j => exact absurd h (ret_ne j)
  | arg i =>
    cases q with
    | ret => exact absurd h.symm (ret_ne i)
    | arg j => rw [Fin.ext (decimal_injective h)]

theorem text_cases (p : ArgPlace) : (∃ d, p.text = [d]) ∨ ∃ c ∈ tens, ∃ d, p.text = [c, d] := by
  cases p with
  | ret => exact Or.inr ⟨'-', by decide, '1', rfl⟩
  | arg i =>
    have hall : ∀ i : Fin 63, (decimal i).length = 1 ∨
        (decimal i).length = 2 ∧ (decimal i).head?.all (· ∈ tens) = true := by decide
    rcases hall i with h | ⟨h, hc⟩
    · exact Or.inl (List.length_eq_one_iff.mp h)
    · obtain ⟨c, d, hcd⟩ := List.length_eq_two.mp h
      rw [hcd] at hc
      exact Or.inr ⟨c, of_decide_eq_true hc, d, hcd⟩

theorem exists_tens {c : Char} (h : c ∈ tens) : ∃ p q : ArgPlace, p.text = c :: q.text := by
  simp only [tens, List.mem_cons, List.not_mem_nil, or_false] at h
  rcases h with rfl | rfl | rfl | rfl | rfl | rfl | rfl
  · exact ⟨.ret, .arg 1, rfl⟩
  · exact ⟨.arg 10, .arg 0, rfl⟩
  · exact ⟨.arg 20, .arg 0, rfl⟩
  · exact ⟨.arg 30, .arg 0, rfl⟩
  · exact ⟨.arg 40, .arg 0, rfl⟩
  · exact ⟨.arg 50, .arg 0, rfl⟩
  · exact ⟨.arg 60, .arg 0, rfl⟩

/-- A longer index on one side takes the last character of the function name on the other. -/
theorem append_text_one (hp : p.text.length = 1) (h : f ++ p.text = g ++ q.text) :
    f = g ∧ p = q ∨ ∃ c ∈ tens, f = g ++ [c] := by
  obtain ⟨d, hd⟩ := List.length_eq_one_iff.mp hp
  rcases q.text_cases with ⟨e, he⟩ | ⟨c, hc, e, he⟩
  · obtain ⟨hfg, htext⟩ := List.append_inj' h (by rw [hd, he]; rfl)
    exact Or.inl ⟨hfg, text_injective htext⟩
  · rw [hd, he, List.append_cons g] at h
    exact Or.inr ⟨c, hc, (List.append_inj' h rfl).1⟩

theorem append_text (h : f ++ p.text = g ++ q.text) :
    f = g ∧ p = q ∨ ∃ c ∈ tens, f = g ++ [c] ∨ g = f ++ [c] := by
  rcases p.text_cases with ⟨d, hd⟩ | ⟨c, hc, d, hd⟩
  · exact (append_text_one (by rw [hd]; rfl) h).imp_right fun ⟨c, hc, h⟩ => ⟨c, hc, Or.inl h⟩
  rcases q.text_cases with ⟨e, he⟩ | ⟨c', hc', e, he⟩
  · refine (append_text_one (by rw [he]; rfl) h.symm).imp ?_ fun ⟨c, hc, h⟩ => ⟨c, hc, Or.inr h⟩
    exact fun ⟨hfg, hpq⟩ => ⟨hfg.symm, hpq.symm⟩
  · obtain ⟨hfg, htext⟩ := List.append_inj' h (by rw [hd, he]; rfl)
    exact Or.inl ⟨hfg, text_injective htext⟩

end ArgPlace

/-- The digits in front of a function name are those of the offset. -/
theorem decimal_append {m n : ℕ} {f g : FunctionName} {s t : List Char}
    (h : decimal m ++ (f.1 ++ s) = decimal n ++ (g.1 ++ t)) : m = n ∧ f.1 ++ s = g.1 ++ t := by
  have hstop (f : FunctionName) (s : List Char) : Stops Char.isDigit (f.1 ++ s) := fun c hc => by
    obtain ⟨d, hd, hdigit⟩ := Option.map_eq_some_iff.mp f.2
    rw [List.head?_append, hd, Option.some_or] at hc
    cases hc
    exact hdigit
  have htake := congrArg (List.takeWhile Char.isDigit) h
  rw [takeWhile_append (fun c => isDigit_of_mem_decimal) (hstop f s),
    takeWhile_append (fun c => isDigit_of_mem_decimal) (hstop g t)] at htake
  rw [htake] at h
  exact ⟨decimal_injective htake, List.append_cancel_left h⟩

/-- The fake names of a set of functions are different if and only if none of the functions is another
one with a digit that an index can start with, or a minus sign, at its end. -/
theorem fakeName_injOn_iff (F : Set FunctionName) :
    Set.InjOn fakeName { k | k.fn ∈ F } ↔ ∀ f ∈ F, ∀ g ∈ F, ∀ c ∈ tens, g.1 ≠ f.1 ++ [c] := by
  constructor
  · intro hinj f hf g hg c hc hgf
    obtain ⟨p, q, hpq⟩ := ArgPlace.exists_tens hc
    have heq : fakeName ⟨none, f, p⟩ = fakeName ⟨none, g, q⟩ := by
      change '0' :: (f.1 ++ p.text) = '0' :: (g.1 ++ q.text)
      rw [hpq, hgf, List.append_assoc, List.singleton_append]
    have hfg := congrArg (fun k => k.fn.1.length) (hinj hf hg heq)
    simp [hgf] at hfg
  · rintro h ⟨m, f, p⟩ hf ⟨n, g, q⟩ hg heq
    have key (heq : f.1 ++ p.text = g.1 ++ q.text) : f = g ∧ p = q := by
      rcases ArgPlace.append_text heq with ⟨hfg, hpq⟩ | ⟨c, hc, hfg | hfg⟩
      · exact ⟨Subtype.ext hfg, hpq⟩
      · exact absurd hfg (h g hg f hf c hc)
      · exact absurd hfg (h f hf g hg c hc)
    cases m with
    | none =>
      cases n with
      | none =>
        obtain ⟨rfl, rfl⟩ := key (List.cons.inj heq).2
        rfl
      | some n => exact absurd (List.cons.inj heq).1 (by decide)
    | some m =>
      cases n with
      | none => exact absurd (List.cons.inj heq).1 (by decide)
      | some n =>
        obtain ⟨rfl, heq⟩ := decimal_append (List.cons.inj heq).2
        obtain ⟨rfl, rfl⟩ := key heq
        rfl

/-- Argument 11 of one function and argument 1 of another. -/
theorem fakeName_eq_of_digit :
    fakeName ⟨none, ⟨['f'], rfl⟩, .arg 11⟩ = fakeName ⟨none, ⟨['f', '1'], rfl⟩, .arg 1⟩ ∧
      (11 : Fin 63) ≠ 1 :=
  ⟨rfl, by decide⟩

/-! ### Structs with function pointers -/

inductive StfpField where
  | funptr (offset : BitVec 16)
  | struct (offset : BitVec 16)

section Register
variable (mem : ℕ → BitVec 64) (fn : FunctionName) (place : ArgPlace) (offsetList : List StfpField)

/-- One turn of the loop, for the struct at `stptr`. A field for the struct itself is not read: its own
address is taken for the struct that it points to. -/
def registerField (stptr : ℕ) (register : ℕ → Scan (List (BitVec 64 × List Char))) :
    StfpField → Scan (List (BitVec 64 × List Char))
  | .funptr offset =>
    if offset.toNat ≤ 9999 then
      .ok [(mem (stptr + offset.toNat), fakeName ⟨some offset.toNat, fn, place⟩)]
    else .error .abort
  | .struct offset =>
    let newptr := stptr + offset.toNat
    if newptr ≠ stptr ∧ newptr ≠ 0 then register newptr else .ok []

def tcgRegisterStructWithFnPtr : ℕ → ℕ → Scan (List (BitVec 64 × List Char))
  | 0, _ => .error .unfinished
  | fuel + 1, stptr =>
    if stptr = 0 then .ok []
    else (offsetList.mapM (registerField mem fn place stptr (tcgRegisterStructWithFnPtr fuel))).map List.flatten

def ownEntries (stptr : ℕ) : List (BitVec 64 × List Char) :=
  offsetList.flatMap fun
    | .funptr offset => [(mem (stptr + offset.toNat), fakeName ⟨some offset.toNat, fn, place⟩)]
    | .struct _ => []

inductive Leads : ℕ → ℕ → Prop
  | refl (stptr : ℕ) : Leads stptr stptr
  | step {stptr p : ℕ} {offset : BitVec 16} (h : .struct offset ∈ offsetList)
      (hne : mem (stptr + offset.toNat) ≠ 0) (hrest : Leads (mem (stptr + offset.toNat)).toNat p) :
      Leads stptr p

def RegistersAll (stptr : ℕ) : Prop :=
  ∃ fuel registered, tcgRegisterStructWithFnPtr mem fn place offsetList fuel stptr = .ok registered ∧
    ∀ e, e ∈ registered ↔ ∃ p, Leads mem offsetList stptr p ∧ e ∈ ownEntries mem fn place offsetList p

variable {mem fn place offsetList} {stptr fuel : ℕ} {registered : List (BitVec 64 × List Char)}

theorem exists_of_mapM_ok {α β : Type} {f : α → Scan β} {l : List α} {r : List β} (h : l.mapM f = .ok r)
    {a : α} (ha : a ∈ l) : ∃ b, f a = .ok b := by
  induction l generalizing r with
  | nil => cases ha
  | cons x l ih =>
    rw [List.mapM_cons] at h
    obtain ⟨b, hb, h⟩ := exists_of_bind_ok h
    obtain ⟨bs, hbs, -⟩ := exists_of_bind_ok h
    rcases List.mem_cons.mp ha with rfl | ha
    · exact ⟨b, hb⟩
    · exact ih hbs ha

theorem mapM_eq_ok {α β : Type} {f : α → Scan β} {g : α → β} {l : List α} (h : ∀ a ∈ l, f a = .ok (g a)) :
    l.mapM f = .ok (l.map g) := by
  induction l with
  | nil => rfl
  | cons a l ih =>
    obtain ⟨ha, hl⟩ := List.forall_mem_cons.mp h
    rw [List.mapM_cons, ha, ih hl]
    rfl

theorem registerField_ok (h : tcgRegisterStructWithFnPtr mem fn place offsetList fuel stptr = .ok registered)
    (hne : stptr ≠ 0) {field : StfpField} (hmem : field ∈ offsetList) : ∃ n < fuel, ∃ r,
      registerField mem fn place stptr (tcgRegisterStructWithFnPtr mem fn place offsetList n) field = .ok r := by
  cases fuel with
  | zero => cases h
  | succ fuel =>
    rw [tcgRegisterStructWithFnPtr, if_neg hne] at h
    obtain ⟨r, hr, -⟩ := exists_of_map_ok h
    exact ⟨fuel, Nat.lt_succ_self fuel, exists_of_mapM_ok hr hmem⟩

/-- A field for the struct itself leads on to the same field behind it, without end. -/
theorem offset_eq_zero {offset : BitVec 16} (hmem : .struct offset ∈ offsetList) (hne : stptr ≠ 0)
    (h : tcgRegisterStructWithFnPtr mem fn place offsetList fuel stptr = .ok registered) :
    offset.toNat = 0 := by
  induction fuel using Nat.strong_induction_on generalizing stptr registered with
  | _ fuel ih =>
    obtain ⟨n, hn, r, hr⟩ := registerField_ok h hne hmem
    by_contra hoff
    dsimp only [registerField] at hr
    rw [if_pos ⟨by omega, by omega⟩] at hr
    exact hoff (ih n hn (by omega) hr)

theorem offset_le {offset : BitVec 16} (hmem : .funptr offset ∈ offsetList) (hne : stptr ≠ 0)
    (h : tcgRegisterStructWithFnPtr mem fn place offsetList fuel stptr = .ok registered) :
    offset.toNat ≤ 9999 := by
  obtain ⟨n, -, r, hr⟩ := registerField_ok h hne hmem
  by_contra hlt
  rw [registerField, if_neg hlt] at hr
  cases hr

/-- Where no field leads on, the struct's own function pointers are registered. -/
theorem register_eq (hfun : ∀ offset, .funptr offset ∈ offsetList → offset.toNat ≤ 9999)
    (hstruct : ∀ offset, .struct offset ∈ offsetList → offset.toNat = 0) (hne : stptr ≠ 0) (fuel : ℕ) :
    tcgRegisterStructWithFnPtr mem fn place offsetList (fuel + 1) stptr =
      .ok (ownEntries mem fn place offsetList stptr) := by
  rw [tcgRegisterStructWithFnPtr, if_neg hne, mapM_eq_ok fun field hfield => ?_]
  · rfl
  · cases field with
    | funptr offset => exact if_pos (hfun offset hfield)
    | struct offset => exact if_neg fun h => h.1 (by rw [hstruct offset hfield, Nat.add_zero])

/-- The call does what it is for if and only if no field leads on to another struct. -/
theorem registersAll_iff (hne : stptr ≠ 0) : RegistersAll mem fn place offsetList stptr ↔
    (∀ offset, .funptr offset ∈ offsetList → offset.toNat ≤ 9999) ∧
      (∀ offset, .struct offset ∈ offsetList → offset.toNat = 0) ∧
      ∀ p, Leads mem offsetList stptr p →
        ownEntries mem fn place offsetList p ⊆ ownEntries mem fn place offsetList stptr := by
  constructor
  · rintro ⟨fuel, registered, hok, hall⟩
    have hfun : ∀ offset, .funptr offset ∈ offsetList → offset.toNat ≤ 9999 :=
      fun _ hmem => offset_le hmem hne hok
    have hstruct : ∀ offset, .struct offset ∈ offsetList → offset.toNat = 0 :=
      fun _ hmem => offset_eq_zero hmem hne hok
    refine ⟨hfun, hstruct, fun p hp e he => ?_⟩
    cases fuel with
    | zero => cases hok
    | succ fuel =>
      rw [register_eq hfun hstruct hne fuel] at hok
      cases hok
      exact (hall e).mpr ⟨p, hp, he⟩
  · rintro ⟨hfun, hstruct, hown⟩
    refine ⟨1, _, register_eq hfun hstruct hne 0, fun e => ⟨fun he => ⟨stptr, .refl stptr, he⟩, ?_⟩⟩
    rintro ⟨p, hp, he⟩
    exact hown p hp he

end Register

/-- A struct with a function pointer and nothing else. -/
theorem registersAll_callback : RegistersAll (fun _ => 0x4000) ⟨['f'], rfl⟩ (.arg 0) [.funptr 8] 0x1000 := by
  refine (registersAll_iff (by decide)).mpr ⟨?_, ?_, ?_⟩
  · simp
  · simp
  · intro p hp
    cases hp with
    | refl => exact List.Subset.refl _
    | step h => simp at h

/-- A field at offset eight that points to the end of the list of structs. -/
theorem not_registersAll_forwarding :
    ¬ RegistersAll (fun _ => 0) ⟨['f'], rfl⟩ (.arg 0) [.struct 8] 0x1004 := by
  rintro ⟨fuel, registered, hok, -⟩
  exact absurd (offset_eq_zero List.mem_cons_self (by decide) hok) (by decide)

end Iqemu64
