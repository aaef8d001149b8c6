import Mathlib.Tactic

/-!
# Slots of spilled temps

`tempAllocateFrame` gives a temp eight bytes of the frame that the prologue has reserved. `temp_sync` and
`temp_load` then access the slot with the instruction for the temp's type.
-/

namespace Iqemu64.Tcg

/-- `TCGType`. -/
inductive TempType where
  | i32 | i64 | v64 | v128 | v256
  deriving DecidableEq, Repr

inductive MemInsn where
  | movl | movlRexw | movd | movq | movdqa | movdquVexl
  deriving DecidableEq, Repr

def MemInsn.bytes : MemInsn → ℕ
  | movl | movd => 4
  | movlRexw | movq => 8
  | movdqa => 16
  | movdquVexl => 32

/-- `tcg_out_ld` into a general register (below 16) or a vector register. -/
def tcgOutLd (type : TempType) (ret : ℕ) : MemInsn :=
  match type with
  | .i32 => if ret < 16 then .movl else .movd
  | .i64 => if ret < 16 then .movlRexw else .movq
  | .v64 => .movq
  | .v128 => .movdqa
  | .v256 => .movdquVexl

def tcgOutSt (type : TempType) (arg : ℕ) : MemInsn := tcgOutLd type arg

/-- `tcg_out_sti`: the store of a constant. -/
def tcgOutSti (type : TempType) (val : BitVec 64) : Option MemInsn :=
  match type with
  | .i64 => if val ≠ (val.setWidth 32).signExtend 64 then none else some .movlRexw
  | .i32 => some .movl
  | _ => none

inductive Accesses (type : TempType) : MemInsn → Prop
  | ld (ret : ℕ) : Accesses type (tcgOutLd type ret)
  | st (arg : ℕ) : Accesses type (tcgOutSt type arg)
  | sti {val : BitVec 64} {insn : MemInsn} (h : tcgOutSti type val = some insn) : Accesses type insn

structure TempFrame where
  currentFrameOffset : ℕ
  frameEnd : ℕ

/-- `tcg_set_frame` as `tcg_target_qemu_prologue` calls it, at the start of a block. -/
def prologueFrame : TempFrame := ⟨128, 128 + 128 * 8⟩

def tempAllocateFrame (s : TempFrame) : Option (ℕ × TempFrame) :=
  let offset := (s.currentFrameOffset + 7) / 8 * 8
  if offset + 8 > s.frameEnd then none else some (offset, { s with currentFrameOffset := offset + 8 })

/-- The slots of temps of the given types, in the order in which they get them. -/
def allocateFrames (s : TempFrame) : List TempType → Option (List (TempType × ℕ))
  | [] => some []
  | type :: types =>
    (tempAllocateFrame s).bind fun (offset, s) => (allocateFrames s types).map ((type, offset) :: ·)

/-- No two temps share a byte, and none leaves the frame. -/
structure SlotsApart (start stop : ℕ) (slots : List (TempType × ℕ)) : Prop where
  apart : slots.Pairwise fun p q => ∀ a b, Accesses p.1 a → Accesses q.1 b →
    p.2 + a.bytes ≤ q.2 ∨ q.2 + b.bytes ≤ p.2
  inside : ∀ p ∈ slots, ∀ a, Accesses p.1 a → start ≤ p.2 ∧ p.2 + a.bytes ≤ stop

def TempType.width : TempType → ℕ
  | i32 => 4
  | i64 | v64 => 8
  | v128 => 16
  | v256 => 32

theorem tcgOutLd_bytes (type : TempType) (ret : ℕ) : (tcgOutLd type ret).bytes = type.width := by
  cases type <;> unfold tcgOutLd <;> split_ifs <;> rfl

theorem Accesses.bytes {type : TempType} {insn : MemInsn} (h : Accesses type insn) :
    insn.bytes = type.width := by
  cases h with
  | ld ret => exact tcgOutLd_bytes type ret
  | st arg => exact tcgOutLd_bytes type arg
  | sti h =>
    cases type <;> simp only [tcgOutSti, reduceCtorEq] at h
    · cases h
      rfl
    · split_ifs at h
      cases h
      rfl

theorem slotsApart_cons {start stop : ℕ} {p : TempType × ℕ} {slots : List (TempType × ℕ)} :
    SlotsApart start stop (p :: slots) ↔
      (∀ q ∈ slots, p.2 + p.1.width ≤ q.2 ∨ q.2 + q.1.width ≤ p.2) ∧
        (start ≤ p.2 ∧ p.2 + p.1.width ≤ stop) ∧ SlotsApart start stop slots := by
  constructor
  · rintro ⟨hapart, hinside⟩
    rw [List.pairwise_cons] at hapart
    rw [List.forall_mem_cons] at hinside
    refine ⟨fun q hq => ?_, ?_, hapart.2, hinside.2⟩
    · rw [← tcgOutLd_bytes p.1 0, ← tcgOutLd_bytes q.1 0]
      exact hapart.1 q hq _ _ (.ld 0) (.ld 0)
    · rw [← tcgOutLd_bytes p.1 0]
      exact hinside.1 _ (.ld 0)
  · rintro ⟨hp, hstop, hapart, hinside⟩
    refine ⟨List.pairwise_cons.mpr ⟨fun q hq a b ha hb => ?_, hapart⟩,
      List.forall_mem_cons.mpr ⟨fun a ha => ?_, hinside⟩⟩
    · rw [ha.bytes, hb.bytes]
      exact hp q hq
    · rw [ha.bytes]
      exact hstop

theorem allocateFrames_cons {s : TempFrame} {type : TempType} {types : List TempType}
    {slots : List (TempType × ℕ)} (haligned : 8 ∣ s.currentFrameOffset)
    (h : allocateFrames s (type :: types) = some slots) :
    s.currentFrameOffset + 8 ≤ s.frameEnd ∧ ∃ rest, slots = (type, s.currentFrameOffset) :: rest ∧
      allocateFrames { s with currentFrameOffset := s.currentFrameOffset + 8 } types = some rest := by
  have hround : (s.currentFrameOffset + 7) / 8 * 8 = s.currentFrameOffset := by omega
  simp only [allocateFrames, tempAllocateFrame, hround] at h
  split_ifs at h with hfull
  · cases h
  · obtain ⟨rest, hrest, rfl⟩ := Option.map_eq_some_iff.mp h
    exact ⟨by omega, rest, rfl, hrest⟩

theorem le_of_mem_allocateFrames {s : TempFrame} {types : List TempType} {slots : List (TempType × ℕ)}
    (haligned : 8 ∣ s.currentFrameOffset) (h : allocateFrames s types = some slots) :
    ∀ p ∈ slots, s.currentFrameOffset ≤ p.2 := by
  induction types generalizing s slots with
  | nil =>
    cases h
    exact fun p hp => (nomatch hp)
  | cons type types ih =>
    obtain ⟨-, rest, rfl, hrest⟩ := allocateFrames_cons haligned h
    refine List.forall_mem_cons.mpr ⟨le_rfl, fun p hp => ?_⟩
    exact (Nat.le_add_right _ 8).trans (ih (Nat.dvd_add haligned (dvd_refl 8)) hrest p hp)

/-- The last temp may reach as far as the frame does, and each other one has its eight bytes. -/
theorem allocateFrames_apart {s : TempFrame} {types : List TempType} {slots : List (TempType × ℕ)}
    {start : ℕ} (haligned : 8 ∣ s.currentFrameOffset) (hstart : start ≤ s.currentFrameOffset)
    (h : allocateFrames s types = some slots) :
    SlotsApart start s.frameEnd slots ↔ (∀ type ∈ types.dropLast, type.width ≤ 8) ∧
      ∀ type ∈ types.getLast?, s.currentFrameOffset + 8 * (types.length - 1) + type.width ≤ s.frameEnd := by
  induction types generalizing s slots with
  | nil =>
    cases h
    exact ⟨fun _ => ⟨fun _ hp => (nomatch hp), fun _ hp => (nomatch hp)⟩,
      fun _ => ⟨.nil, fun _ hp => (nomatch hp)⟩⟩
  | cons type types ih =>
    obtain ⟨hroom, rest, rfl, hrest⟩ := allocateFrames_cons haligned h
    have haligned' : 8 ∣ s.currentFrameOffset + 8 := Nat.dvd_add haligned (dvd_refl 8)
    rw [slotsApart_cons, ih (s := { s with currentFrameOffset := _ }) haligned' (by simp; omega) hrest]
    cases types with
    | nil =>
      cases hrest
      simp [hstart]
    | cons next types =>
      obtain ⟨-, rest', rfl, -⟩ := allocateFrames_cons (s := { s with currentFrameOffset := _ }) haligned' hrest
      -- the next slot begins eight bytes further, and the others after it
      have hfirst : (∀ q ∈ (next, s.currentFrameOffset + 8) :: rest',
          s.currentFrameOffset + type.width ≤ q.2 ∨ q.2 + q.1.width ≤ s.currentFrameOffset) ↔
            type.width ≤ 8 := by
        have hle := le_of_mem_allocateFrames (s := { s with currentFrameOffset := _ }) haligned' hrest
        simp only at hle
        refine ⟨fun hq => ?_, fun hw q hq => Or.inl (by have := hle q hq; omega)⟩
        rcases hq _ List.mem_cons_self with hw | hw
        · omega
        · simp only at hw
          omega
      rw [hfirst]
      simp only [List.dropLast_cons_cons, List.forall_mem_cons, List.getLast?_cons_cons, List.length_cons]
      constructor
      · rintro ⟨hw, -, hall, hlast⟩
        refine ⟨⟨hw, hall⟩, fun t ht => ?_⟩
        have := hlast t ht
        omega
      · rintro ⟨⟨hw, hall⟩, hlast⟩
        refine ⟨hw, ⟨hstart, by omega⟩, hall, fun t ht => ?_⟩
        have := hlast t ht
        omega

/-- The slots of a block are apart if and only if no temp but the last to get one is wider than eight bytes, and
the last fits behind the others. -/
theorem slotsApart_iff (types : List TempType) (slots : List (TempType × ℕ))
    (h : allocateFrames prologueFrame types = some slots) :
    SlotsApart prologueFrame.currentFrameOffset prologueFrame.frameEnd slots ↔
      (∀ type ∈ types.dropLast, type.width ≤ 8) ∧
        ∀ type ∈ types.getLast?, 8 * (types.length - 1) + type.width ≤ 1024 := by
  rw [allocateFrames_apart (by decide) le_rfl h]
  refine and_congr Iff.rfl (forall₂_congr fun type _ => ?_)
  simp only [prologueFrame]
  omega

theorem slotsApart_integers : SlotsApart 128 1152 [(.i32, 128), (.i64, 136), (.v128, 144)] :=
  (slotsApart_iff [.i32, .i64, .v128] _ rfl).mpr ⟨by decide, by decide⟩

/-- A temp of 16 bytes and one behind it. -/
theorem not_slotsApart_vector : ∃ slots,
    allocateFrames prologueFrame [.v128, .i64] = some slots ∧ ¬ SlotsApart 128 1152 slots := by
  refine ⟨_, rfl, fun h => ?_⟩
  have hfirst := (slotsApart_cons.mp h).1 _ List.mem_cons_self
  revert hfirst
  decide

end Iqemu64.Tcg
