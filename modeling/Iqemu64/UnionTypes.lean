import Iqemu64.TypesParser

/-!
# Union types

The members of a union are parsed into a table of pointers to their descriptors. The loop of `getUnionType` over
the members starts at the first descriptor and counts up the pointer to it, one descriptor in memory at a time,
until the pointer is null. The table itself is not read again.
-/

namespace Iqemu64
open CString

/-- The table of the parsed members: where their descriptors are and what they say. Memory of a process lies below
2 ^ 47. -/
structure MemberTable where
  memory : BitVec 64 → Option FfiType
  first : BitVec 64 × FfiType
  rest : List (BitVec 64 × FfiType)
  stored : ∀ m ∈ first :: rest, memory m.1 = some m.2
  mapped : ∀ m ∈ first :: rest, m.1 ≠ 0 ∧ m.1.toNat < 2 ^ 47

namespace MemberTable

def members (t : MemberTable) : List (BitVec 64 × FfiType) := t.first :: t.rest

end MemberTable

def unionTurn (oneElmt i : FfiType) : FfiType :=
  match initializeType i with
  | none => oneElmt
  | some i =>
    if (xxRetFlags i).isNone then oneElmt
    else
      let alignment := if i.alignment > oneElmt.alignment then i.alignment else oneElmt.alignment
      if i.size > oneElmt.size then
        if i.type = .struct then .mk i.size alignment i.type i.elements else .mk i.size alignment .uint64 []
      else .mk oneElmt.size alignment oneElmt.type oneElmt.elements

def unionLoop (memory : BitVec 64 → Option FfiType) :
    ℕ → BitVec 64 → FfiType → Scan (FfiType × List (BitVec 64))
  | 0, _, _ => .error .unfinished
  | fuel + 1, i, oneElmt =>
    if i = 0 then .ok (oneElmt, [])
    else match memory i with
      | none => .error .overread
      | some ty =>
        (unionLoop memory fuel (i + 24) (unionTurn oneElmt ty)).map fun (oneElmt, reads) =>
          (oneElmt, i :: reads)

/-- `getUnionType` after its members have been parsed. -/
def getUnionType (t : MemberTable) (fuel : ℕ) : Scan (FfiType × List (BitVec 64)) :=
  (unionLoop t.memory fuel t.first.1 (.mk 0 0 .void [])).map fun (oneElmt, reads) =>
    (.mk 0 0 .struct [oneElmt], reads)

def maxOver (f : FfiType → ℕ) (descs : List FfiType) : ℕ := descs.foldr (fun d m => max (f d) m) 0

/-- The layout that C gives a union, from a result of which only descriptors of members were read. -/
def MemberTable.UnionLayout (t : MemberTable) : Prop :=
  ∃ fuel ty reads desc descs, getUnionType t fuel = .ok (ty, reads) ∧
    (∀ a ∈ reads, a ∈ t.members.map Prod.fst) ∧ initializeAggregate ty = some desc ∧
    (t.members.map Prod.snd).mapM initializeType = some descs ∧
    desc.size = ffiAlign (maxOver FfiType.size descs) (maxOver FfiType.alignment descs) ∧
    desc.alignment = maxOver FfiType.alignment descs

/-- A pointer that is not null is read, and the loop goes on behind it. -/
theorem unionLoop_turn {memory : BitVec 64 → Option FfiType} {fuel : ℕ} {i : BitVec 64}
    {oneElmt oneElmt' : FfiType} {reads : List (BitVec 64)} (hne : i ≠ 0)
    (h : unionLoop memory fuel i oneElmt = .ok (oneElmt', reads)) :
    ∃ fuel' one reads', fuel = fuel' + 1 ∧ reads = i :: reads' ∧
      unionLoop memory fuel' (i + 24) one = .ok (oneElmt', reads') := by
  cases fuel with
  | zero => cases h
  | succ fuel =>
    rw [unionLoop, if_neg hne] at h
    cases hread : memory i with
    | none => simp [hread] at h
    | some ty =>
      simp only [hread] at h
      cases hloop : unionLoop memory fuel (i + 24) (unionTurn oneElmt ty) with
      | error e =>
        rw [hloop] at h
        cases h
      | ok result =>
        rw [hloop] at h
        cases h
        exact ⟨fuel, _, _, rfl, rfl, hloop⟩

/-- A pointer below 2 ^ 47 is not null before descriptors above have been read. -/
theorem unionLoop_reads_above {memory : BitVec 64 → Option FfiType} {fuel : ℕ} {i : BitVec 64}
    {oneElmt oneElmt' : FfiType} {reads : List (BitVec 64)} (hne : i ≠ 0) (hlow : i.toNat < 2 ^ 47)
    (h : unionLoop memory fuel i oneElmt = .ok (oneElmt', reads)) : ∃ a ∈ reads, 2 ^ 47 ≤ a.toNat := by
  induction fuel generalizing i oneElmt reads with
  | zero => cases h
  | succ fuel ih =>
    obtain ⟨fuel', one, reads', hfuel, rfl, hloop⟩ := unionLoop_turn hne h
    obtain rfl : fuel = fuel' := Nat.succ.inj hfuel
    have hnext : (i + 24).toNat = i.toNat + 24 := by
      have h24 : (24 : BitVec 64).toNat = 24 := rfl
      rw [BitVec.toNat_add]
      omega
    have hne' : i + 24 ≠ 0 := fun hzero => by
      rw [hzero] at hnext
      simp at hnext
    by_cases hlow' : (i + 24).toNat < 2 ^ 47
    · obtain ⟨a, ha, habove⟩ := ih hne' hlow' hloop
      exact ⟨a, List.mem_cons_of_mem _ ha, habove⟩
    · -- the loop goes on with the first descriptor above
      obtain ⟨-, -, reads'', -, rfl, -⟩ := unionLoop_turn hne' hloop
      exact ⟨i + 24, by simp, by omega⟩

/-- No union with members gets its layout from its members alone. -/
theorem not_unionLayout (t : MemberTable) : ¬ t.UnionLayout := by
  rintro ⟨fuel, ty, reads, desc, descs, hget, honly, -⟩
  unfold getUnionType at hget
  cases hloop : unionLoop t.memory fuel t.first.1 (.mk 0 0 .void []) with
  | error e =>
    rw [hloop] at hget
    cases hget
  | ok result =>
    rw [hloop] at hget
    cases hget
    obtain ⟨hne, hlow⟩ := t.mapped t.first List.mem_cons_self
    obtain ⟨a, ha, habove⟩ := unionLoop_reads_above hne hlow hloop
    obtain ⟨m, hm, rfl⟩ := List.mem_map.mp (honly a ha)
    have := (t.mapped m hm).2
    omega

/-- The table of `(u=i)` in a memory that has nothing behind the descriptor of `int`. -/
def intUnion : MemberTable where
  memory := fun a => if a = 4096 then some Scalar.sint32.ffi else none
  first := (4096, Scalar.sint32.ffi)
  rest := []
  stored := by simp
  mapped := by decide

/-- The second turn of the loop reads behind the only member. -/
theorem intUnion_overread : getUnionType intUnion 2 = .error .overread := rfl

end Iqemu64
