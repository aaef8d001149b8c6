import Iqemu64.ByteMemory

/-!
# Initializers and terminators of a loaded image

`markAllSectionCalls` registers the functions that the sections of a segment list, each with the
type encoding of an initializer or a terminator.
-/

namespace Iqemu64
open ByteMemory List

structure MachSection where
  addr : BitVec 64
  size : BitVec 64
  flags : BitVec 32

/-- A call of `tcg_register_callback_as_type`. -/
structure TypedCallback where
  func : BitVec 64
  types : String
  deriving DecidableEq

def initTypes : String := "v36i0r^*4r^*12r^*20r^\x7bProgramVars=^v^i^^*^^*^*\x7d28"

def termTypes : String := "v0"

def sModInitFuncPointers : BitVec 8 := 0x9

def sModTermFuncPointers : BitVec 8 := 0xa

def sInitFuncOffsets : BitVec 8 := 0x16

section

variable (mem : Mem) (machHeader slide : BitVec 64) (sect : MachSection)

namespace MachSection

/-- The section's type: the part of the flags under `SECTION_TYPE`. -/
def type : BitVec 8 := (sect.flags &&& 0xff).setWidth 8

def entry (width j : ℕ) : BitVec 64 :=
  BitVec.ofNat 64 (mem.loadWord (sect.addr + slide + BitVec.ofNat 64 (width * j)).toNat width)

def pointer (j : ℕ) : BitVec 64 := sect.entry mem slide 8 j

def offset (j : ℕ) : BitVec 64 := sect.entry mem slide 4 j

def count : ℕ := sect.size.toNat / 8

def calls : List TypedCallback :=
  if sect.type = sModInitFuncPointers then
    (range sect.count).map fun j => ⟨sect.pointer mem slide j, initTypes⟩
  else if sect.type = sInitFuncOffsets then
    (range sect.count).map fun j => ⟨machHeader + sect.offset mem slide j, initTypes⟩
  else if sect.type = sModTermFuncPointers then
    (range sect.count).map fun j => ⟨sect.pointer mem slide j, termTypes⟩
  else []

/-- The functions a section lists: pointers of eight bytes or offsets of four bytes. -/
inductive Lists : TypedCallback → Prop
  | init {j : ℕ} (ht : sect.type = sModInitFuncPointers) (hj : j < sect.size.toNat / 8) :
    Lists ⟨sect.pointer mem slide j, initTypes⟩
  | initOffset {j : ℕ} (ht : sect.type = sInitFuncOffsets) (hj : j < sect.size.toNat / 4) :
    Lists ⟨machHeader + sect.offset mem slide j, initTypes⟩
  | term {j : ℕ} (ht : sect.type = sModTermFuncPointers) (hj : j < sect.size.toNat / 8) :
    Lists ⟨sect.pointer mem slide j, termTypes⟩

/-- An initializer among the first `size / 8` entries of the section. -/
inductive Early : BitVec 64 → Prop
  | init {j : ℕ} (ht : sect.type = sModInitFuncPointers) (hj : j < sect.size.toNat / 8) :
    Early (sect.pointer mem slide j)
  | initOffset {j : ℕ} (ht : sect.type = sInitFuncOffsets) (hj : j < sect.size.toNat / 8) :
    Early (machHeader + sect.offset mem slide j)

variable {mem machHeader slide sect}

theorem mem_calls_iff {c : TypedCallback} :
    c ∈ sect.calls mem machHeader slide ↔
      (c.types = initTypes ∧ sect.Early mem machHeader slide c.func) ∨
        ∃ j < sect.size.toNat / 8, sect.type = sModTermFuncPointers ∧
          c = ⟨sect.pointer mem slide j, termTypes⟩ := by
  constructor
  · intro hc
    unfold calls at hc
    split_ifs at hc with hi ho ht
    · obtain ⟨j, hj, rfl⟩ := mem_map.mp hc
      exact .inl ⟨rfl, .init hi (mem_range.mp hj)⟩
    · obtain ⟨j, hj, rfl⟩ := mem_map.mp hc
      exact .inl ⟨rfl, .initOffset ho (mem_range.mp hj)⟩
    · obtain ⟨j, hj, rfl⟩ := mem_map.mp hc
      exact .inr ⟨j, mem_range.mp hj, ht, rfl⟩
    · exact absurd hc not_mem_nil
  · have hne : sInitFuncOffsets ≠ sModInitFuncPointers := by decide
    have hne' : sModTermFuncPointers ≠ sModInitFuncPointers := by decide
    have hne'' : sModTermFuncPointers ≠ sInitFuncOffsets := by decide
    rintro (⟨htypes, hearly⟩ | ⟨j, hj, ht, hc⟩)
    · obtain ⟨func, types⟩ := c
      dsimp only at htypes hearly
      subst htypes
      cases hearly with
      | init ht hj =>
        rw [calls, if_pos ht]
        exact mem_map_of_mem (mem_range.mpr hj)
      | initOffset ht hj =>
        rw [calls, if_neg (ht ▸ hne), if_pos ht]
        exact mem_map_of_mem (mem_range.mpr hj)
    · rw [hc, calls, if_neg (ht ▸ hne'), if_neg (ht ▸ hne''), if_pos ht]
      exact mem_map_of_mem (mem_range.mpr hj)

theorem lists_of_mem_calls {c : TypedCallback} (hc : c ∈ sect.calls mem machHeader slide) :
    sect.Lists mem machHeader slide c := by
  obtain ⟨func, types⟩ := c
  rcases mem_calls_iff.mp hc with ⟨htypes, hearly⟩ | ⟨j, hj, ht, hc⟩
  · dsimp only at htypes hearly
    subst htypes
    cases hearly with
    | init ht hj => exact .init ht hj
    | initOffset ht hj => exact .initOffset ht (by omega)
  · rw [hc]
    exact .term ht hj

end MachSection

/-- `mark_all_section_calls`: what is registered, in order. -/
def markAllSectionCalls (sects : List MachSection) : List TypedCallback :=
  sects.flatMap (MachSection.calls mem machHeader slide)

/-- Exactly the listed functions are registered if and only if each offset behind the first
`size / 8` ones of an offset section is that of an initializer among the first `size / 8` entries
of some section. -/
theorem markAllSectionCalls_exact_iff (sects : List MachSection) :
    (∀ c, c ∈ markAllSectionCalls mem machHeader slide sects ↔
        ∃ sect ∈ sects, sect.Lists mem machHeader slide c) ↔
      ∀ sect ∈ sects, sect.type = sInitFuncOffsets →
        ∀ j, sect.size.toNat / 8 ≤ j → j < sect.size.toNat / 4 →
          ∃ other ∈ sects,
            other.Early mem machHeader slide (machHeader + sect.offset mem slide j) := by
  constructor
  · intro h sect hsect ht j _ hj
    obtain ⟨other, hother, hc⟩ := mem_flatMap.mp ((h _).mpr ⟨sect, hsect, .initOffset ht hj⟩)
    rcases MachSection.mem_calls_iff.mp hc with ⟨-, hearly⟩ | ⟨i, -, -, hc⟩
    · exact ⟨other, hother, hearly⟩
    · have hne : initTypes ≠ termTypes := by decide
      exact absurd (congrArg TypedCallback.types hc) hne
  · intro h c
    constructor
    · intro hc
      obtain ⟨sect, hsect, hc⟩ := mem_flatMap.mp hc
      exact ⟨sect, hsect, MachSection.lists_of_mem_calls hc⟩
    · rintro ⟨sect, hsect, hlists⟩
      cases hlists with
      | init ht hj =>
        exact mem_flatMap.mpr
          ⟨sect, hsect, MachSection.mem_calls_iff.mpr (.inl ⟨rfl, .init ht hj⟩)⟩
      | initOffset ht hj =>
        rename_i j
        obtain ⟨other, hother, hearly⟩ : ∃ other ∈ sects,
            other.Early mem machHeader slide (machHeader + sect.offset mem slide j) := by
          by_cases hlow : j < sect.size.toNat / 8
          · exact ⟨sect, hsect, .initOffset ht hlow⟩
          · exact h sect hsect ht j (by omega) hj
        exact mem_flatMap.mpr
          ⟨other, hother, MachSection.mem_calls_iff.mpr (.inl ⟨rfl, hearly⟩)⟩
      | term ht hj =>
        exact mem_flatMap.mpr
          ⟨sect, hsect, MachSection.mem_calls_iff.mpr (.inr ⟨_, hj, ht, rfl⟩)⟩

end

/-- Two offsets of four bytes: the second one is listed and not registered. -/
theorem second_offset_not_registered :
    let mem : Mem := fun a => if a = 0x2004 then 8 else 0
    let sect : MachSection := { addr := 0x2000, size := 8, flags := 0x16 }
    sect.Lists mem 0x1000 0 ⟨0x1008, initTypes⟩ ∧
      ⟨0x1008, initTypes⟩ ∉ markAllSectionCalls mem 0x1000 0 [sect] := by
  intro mem sect
  have hsecond : (0x1000 : BitVec 64) + sect.offset mem 0 1 = 0x1008 := by decide
  have htype : sect.type = sInitFuncOffsets := by decide
  have hlisted : sect.Lists mem 0x1000 0 ⟨0x1000 + sect.offset mem 0 1, initTypes⟩ :=
    .initOffset htype (by decide)
  exact ⟨hsecond ▸ hlisted, by decide⟩

end Iqemu64
