import Iqemu64.TypeEncoding

/-!
# Extended block signatures

The encoding of a block may carry the signature of the block in angle brackets, and the types of that signature
may be extended block encodings again. Both scanners of the parser look for the first closing bracket.
-/

namespace Iqemu64
open CString

inductive ExtendedType where
  | code (c : TypeCode)
  | pointer (pointee : ExtendedType)
  | qualified (q : Qualifier) (t : ExtendedType)
  | object (className : Option (TypeName '"'))
  | block
  | signedBlock (ret : ExtendedType) (args : List ExtendedType)
  | array (count : ℕ) (element : ExtendedType)
  | struct (name : TypeName '=') (members : List ExtendedType)
  | union (name : TypeName '=') (members : List ExtendedType)

namespace ExtendedType

mutual

def print : ExtendedType → List Char
  | code c => [c.letter]
  | pointer p => '^' :: p.print
  | qualified q t => q.letter :: t.print
  | object none => ['@']
  | object (some name) => '@' :: '"' :: (name.1 ++ ['"'])
  | block => ['@', '?']
  | signedBlock ret args => '@' :: '?' :: '<' :: (ret.print ++ (printAll args ++ ['>']))
  | array n e => '[' :: (decimal n ++ (e.print ++ [']']))
  | struct name ms => '{' :: (name.1 ++ '=' :: (printAll ms ++ ['}']))
  | union name ms => '(' :: (name.1 ++ '=' :: (printAll ms ++ [')']))

def printAll : List ExtendedType → List Char
  | [] => []
  | m :: ms => m.print ++ printAll ms

end

end ExtendedType

theorem eq_append_of_skipPast {c : Char} {s rest : List Char} (h : skipPast c s = .ok rest) :
    ∃ w, s = w ++ c :: rest ∧ c ∉ w := by
  induction s with
  | nil => cases h
  | cons d s ih =>
    rw [skipPast] at h
    by_cases hd : d = c
    · rw [if_pos hd] at h
      cases h
      exact ⟨[], by rw [hd]; rfl, List.not_mem_nil⟩
    · rw [if_neg hd] at h
      obtain ⟨w, rfl, hw⟩ := ih h
      refine ⟨d :: w, rfl, fun hmem => ?_⟩
      obtain hmem | hmem := List.mem_cons.mp hmem
      · exact hd hmem.symm
      · exact hw hmem

/-- The search stops at the end of the text exactly if the character is not in the text. -/
theorem skipPast_append_iff {c : Char} {w rest : List Char} :
    skipPast c (w ++ c :: rest) = .ok rest ↔ c ∉ w := by
  constructor
  · intro h
    obtain ⟨w', hw', hnot⟩ := eq_append_of_skipPast h
    rwa [List.append_cancel_right hw']
  · exact fun hw => skipPast_append hw rest

/-- Both scanners take the encoding of a block with its signature to the closing bracket of the signature, for
every text after it, exactly if there is no closing bracket inside. -/
theorem signedBlock_consumed_iff (ret : ExtendedType) (args : List ExtendedType) :
    (∀ (fuel : ℕ) (arrAsAggr : Bool) (rest : List Char),
        getType (fuel + 1) arrAsAggr ((ExtendedType.signedBlock ret args).print ++ rest) =
          .ok (Scalar.pointer.ffi, true, rest) ∧
        moveFwdAType ((ExtendedType.signedBlock ret args).print ++ rest) = .ok rest) ↔
      '>' ∉ ret.print ++ ExtendedType.printAll args := by
  have hprint : ∀ rest, (ExtendedType.signedBlock ret args).print ++ rest =
      '@' :: '?' :: '<' :: (ret.print ++ ExtendedType.printAll args ++ '>' :: rest) := by
    simp [ExtendedType.print]
  have hobject : ∀ text, moveFwdObject ('?' :: '<' :: text) = skipPast '>' text := fun _ => rfl
  have hmove : ∀ text, moveFwdAType ('@' :: text) = moveFwdObject text := fun _ => rfl
  constructor
  · intro h
    have hrest := (h 0 false []).2
    rw [hprint, hmove, hobject] at hrest
    exact skipPast_append_iff.mp hrest
  · intro hnot fuel arrAsAggr rest
    rw [hprint]
    refine ⟨?_, ?_⟩
    · rw [getType, hobject, skipPast_append_iff.mpr hnot]
      rfl
    · exact skipPast_append_iff.mpr hnot

/-- The block inside ends the search: its closing bracket is taken for that of the outer block. -/
theorem signedBlock_consumed_nested :
    ∃ rest, getType 1 false ((ExtendedType.signedBlock (.code .void)
          [.signedBlock (.code .void) [.block]]).print ++ rest) =
        .ok (Scalar.pointer.ffi, true, '>' :: rest) ∧
      moveFwdAType ((ExtendedType.signedBlock (.code .void)
          [.signedBlock (.code .void) [.block]]).print ++ rest) = .ok ('>' :: rest) ∧
      getType 1 false ('>' :: rest) = .error .abort :=
  ⟨['i'], rfl, rfl, rfl⟩

end Iqemu64
