import Iqemu64.Trampolines

/-!
# Where a trampoline takes a host caller

The bytes of a trampoline are decoded again: a short jump over the data, then either a move to `r10`
that is pushed for the emulator, or a jump to a host function. A jump that no displacement reaches
goes through a pool word, which the unit has behind its code.
-/

namespace Iqemu64
open ByteMemory TcgContext List TrampolineCode

def HasBytes (m : Mem) (a : ℕ) (bs : List UInt8) : Prop := ∀ k < bs.length, m (a + k) = bs.getD k 0

variable {m : Mem} {a : ℕ} {bs cs : List UInt8}

theorem hasBytes_append :
    HasBytes m a (bs ++ cs) ↔ HasBytes m a bs ∧ HasBytes m (a + bs.length) cs := by
  constructor
  · intro h
    refine ⟨fun k hk => ?_, fun k hk => ?_⟩
    · rw [h k (by simp; omega), getD_append _ _ _ _ hk]
    · rw [Nat.add_assoc, h _ (by simp; omega), getD_append_right _ _ _ _ (by omega),
        Nat.add_sub_cancel_left]
  · rintro ⟨hb, hc⟩ k hk
    by_cases hlt : k < bs.length
    · rw [hb k hlt, getD_append _ _ _ _ hlt]
    · have hrest := hc (k - bs.length) (by simp at hk; omega)
      rw [getD_append_right _ _ _ _ (by omega), ← hrest]
      congr 1
      omega

theorem HasBytes.loadWord {n v : ℕ} (h : HasBytes m a (leBytes n v)) :
    m.loadWord a n = v % 256 ^ n := by
  rw [Mem.loadWord, ← leWord_byteAt]
  refine leWord_congr n _ _ fun k hk => ?_
  rw [h k (by simpa using hk)]
  simp [leBytes, hk]

theorem hasBytes_cons {b : UInt8} :
    HasBytes m a (b :: bs) ↔ m a = b ∧ HasBytes m (a + 1) bs := by
  rw [show b :: bs = [b] ++ bs from rfl, hasBytes_append]
  refine and_congr_left' ⟨fun h => h 0 (by simp), fun h k hk => ?_⟩
  obtain rfl : k = 0 := by simpa using hk
  exact h

/-! ### Decoding -/

def decodeMoviR10 (m : Mem) (q : ℕ) : Option (BitVec 64 × ℕ) :=
  if m q = 0x45 ∧ m (q + 1) = 0x33 ∧ m (q + 2) = 0xd2 then some (0, q + 3)
  else if m q = 0x41 ∧ m (q + 1) = 0xba then
    some (BitVec.ofNat 64 (m.loadWord (q + 2) 4), q + 6)
  else if m q = 0x49 ∧ m (q + 1) = 0xc7 ∧ m (q + 2) = 0xc2 then
    some ((BitVec.ofNat 32 (m.loadWord (q + 3) 4)).signExtend 64, q + 7)
  else if m q = 0x4c ∧ m (q + 1) = 0x8d ∧ m (q + 2) = 0x15 then
    some (BitVec.ofInt 64 (q + 7 + (BitVec.ofNat 32 (m.loadWord (q + 3) 4)).toInt), q + 7)
  else if m q = 0x49 ∧ m (q + 1) = 0xba then
    some (BitVec.ofNat 64 (m.loadWord (q + 2) 8), q + 10)
  else none

def decodeJmp (m : Mem) (q : ℕ) : Option (BitVec 64) :=
  if m q = 0xe9 then
    some (BitVec.ofInt 64 (q + 5 + (BitVec.ofNat 32 (m.loadWord (q + 1) 4)).toInt))
  else if m q = 0xff ∧ m (q + 1) = 0x25 then
    some (BitVec.ofNat 64 (m.loadWord
      ((q + 6 + (BitVec.ofNat 32 (m.loadWord (q + 2) 4)).toInt : ℤ).toNat) 8))
  else none

inductive HostTarget where
  | guest (pc : BitVec 64)
  | host (pc : BitVec 64)
  deriving DecidableEq

def hostTarget (m : Mem) (p : ℕ) : Option HostTarget :=
  let q := if m p = 0xeb then p + 2 + (m (p + 1)).toNat else p
  match decodeMoviR10 m q with
  | some (v, q) => if m q = 0x41 ∧ m (q + 1) = 0x52 then some (.guest v) else none
  | none => (decodeJmp m q).map .host

theorem toNat_lt_displacement (v : BitVec 32) : v.toNat < 256 ^ 4 := v.isLt

theorem toInt_ofInt_of_fits {z : ℤ} (h : fitsInt32 z = true) : (BitVec.ofInt 32 z).toInt = z := by
  simp only [fitsInt32, decide_eq_true_eq] at h
  rw [BitVec.toInt_ofInt]
  exact Int.bmod_eq_of_le (by omega) (by omega)

theorem HasBytes.displacement {z : ℤ}
    (h : HasBytes m a (leBytes 4 (BitVec.ofInt 32 z).toNat)) (hz : fitsInt32 z = true) :
    (BitVec.ofNat 32 (m.loadWord a 4)).toInt = z := by
  rw [h.loadWord, Nat.mod_eq_of_lt (toNat_lt_displacement _), BitVec.ofNat_toNat,
    BitVec.setWidth_eq, toInt_ofInt_of_fits hz]

variable {v : BitVec 64}

theorem signExtend_of_fits (h : fitsInt32 v.toInt = true) :
    (BitVec.ofNat 32 (v.toNat % 256 ^ 4)).signExtend 64 = v := by
  simp only [fitsInt32, decide_eq_true_eq] at h
  apply BitVec.eq_of_toInt_eq
  rw [BitVec.toInt_signExtend_of_le (by omega), BitVec.toInt_eq_toNat_cond,
    BitVec.toInt_eq_toNat_cond]
  rw [BitVec.toInt_eq_toNat_cond] at h
  have hlt := v.isLt
  rw [BitVec.toNat_ofNat]
  split at h <;> split <;> omega

variable {q : ℕ}

theorem decodeMoviR10_moviBytes
    (h : HasBytes m q (moviBytes q 2 v)) :
    decodeMoviR10 m q = some (v, q + (moviBytes q 2 v).length) := by
  simp only [moviBytes] at h ⊢
  by_cases hzero : v = 0
  · simp only [hzero, if_true, hasBytes_cons] at h
    simp [decodeMoviR10, h, hzero]
  simp only [hzero, if_false] at h ⊢
  by_cases hword : v.toNat < 2 ^ 32
  · simp only [hword, if_true, cons_append, nil_append, hasBytes_cons] at h ⊢
    have hload := h.2.2.loadWord
    rw [Nat.mod_eq_of_lt (by omega)] at hload
    simp [decodeMoviR10, h, hload]
  simp only [hword, if_false] at h ⊢
  by_cases hint : fitsInt32 v.toInt = true
  · simp only [hint, if_true, cons_append, nil_append, hasBytes_cons] at h ⊢
    have hload := h.2.2.2.loadWord
    have hsign := signExtend_of_fits hint
    rw [← hload] at hsign
    simp [decodeMoviR10, h]
    exact hsign
  simp only [hint, Bool.false_eq_true, if_false] at h ⊢
  by_cases hlea : fitsInt32 ((v.toNat : ℤ) - (q + 7)) = true
  · simp only [hlea, if_true, cons_append, nil_append, hasBytes_cons] at h ⊢
    have hload : (BitVec.ofNat 32 (m.loadWord (q + 3) 4)).toInt = (v.toNat : ℤ) - (q + 7) :=
      h.2.2.2.displacement hlea
    simp [decodeMoviR10, h, hload]
  simp only [hlea, Bool.false_eq_true, if_false, cons_append, nil_append,
    hasBytes_cons] at h ⊢
  have hload := h.2.2.loadWord
  rw [Nat.mod_eq_of_lt (toNat_lt_word v)] at hload
  simp [decodeMoviR10, h, hload]

/-! ### The code behind the header -/

namespace TcgContext

theorem write_write_append (m : Mem) (a : ℕ) (bs cs : List UInt8) :
    (m.write a bs.length fun k => bs.getD k 0).write (a + bs.length) cs.length
      (fun k => cs.getD k 0) = m.write a (bs ++ cs).length fun k => (bs ++ cs).getD k 0 := by
  funext x
  rw [length_append]
  by_cases hfirst : a ≤ x ∧ x < a + bs.length
  · rw [Mem.write_outside _ _ _ _ _ (by omega), Mem.write, if_pos hfirst, Mem.write,
      if_pos (by omega), getD_append _ _ _ _ (by omega)]
  · by_cases hsecond : a + bs.length ≤ x ∧ x < a + bs.length + cs.length
    · rw [Mem.write, if_pos hsecond, Mem.write, if_pos (by omega),
        getD_append_right _ _ _ _ (by omega)]
      congr 1
      omega
    · rw [Mem.write_outside _ _ _ _ _ (by omega), Mem.write_outside _ _ _ _ _ (by omega),
        Mem.write_outside _ _ _ _ _ (by omega)]

theorem tcgOut_append (s : TcgContext) (bs cs : List UInt8) :
    (s.tcgOut bs).tcgOut cs = s.tcgOut (bs ++ cs) := by
  cases bs with
  | nil => simp [tcgOut, store]
  | cons b bs =>
    cases cs with
    | nil => simp [tcgOut, store]
    | cons c cs =>
      have hmem := write_write_append s.mem s.codePtr (b :: bs) (c :: cs)
      have hemitted : max (max s.emitted (s.codePtr + (b :: bs).length))
          (s.codePtr + (b :: bs).length + (c :: cs).length) =
            max s.emitted (s.codePtr + (b :: bs ++ c :: cs).length) := by
        rw [length_append]
        omega
      simp only [tcgOut, store, isEmpty_cons, cons_append, Bool.false_eq_true,
        if_false] at hmem hemitted ⊢
      rw [hmem, hemitted]
      simp only [length_cons, length_append, TcgContext.mk.injEq, and_true, true_and]
      omega

end TcgContext

variable {ops : List EmitOp} {code : ℕ} {c : TcgContext}

theorem inPlace_bytes_bytes :
    InPlace (.bytes bs :: .bytes cs :: ops) code c ↔ InPlace (.bytes (bs ++ cs) :: ops) code c := by
  have hsame : ∀ fuel s, TcgContext.codeGenUnit fuel s (.bytes bs :: .bytes cs :: ops) =
      TcgContext.codeGenUnit fuel s (.bytes (bs ++ cs) :: ops) := by
    intro fuel s
    simp only [codeGenUnit, emitOps, emitOp, Option.bind_some, tcgOut_append]
  simp only [InPlace, hsame]

theorem inPlace_bytes_movi {r : Fin 8} (h : InPlace (.bytes bs :: .movi r v :: ops) code c) :
    InPlace (.bytes (bs ++ moviBytes (code + bs.length) r v) :: ops) code c := by
  obtain ⟨fuel, s, t, hempty, rfl, ht, hle, hmem⟩ := h
  refine ⟨fuel, s, t, hempty, rfl, ?_, hle, hmem⟩
  simp only [codeGenUnit, emitOps, emitOp, Option.bind_some, ← tcgOut_append] at ht ⊢
  exact ht

theorem InPlace.hasBytes
    (h : InPlace (.bytes bs :: ops) code c) : HasBytes c.mem code bs := fun _ hk => h.header hk

theorem length_methodHeader (code mark : ℕ) (m : BitVec 64) (method : ObjcMethod) :
    (methodHeader code mark m method).length = 38 := by
  simp [methodHeader]

variable {p : ℕ} {method : ObjcMethod}

theorem hostTarget_of_header {mark : ℕ} {key : BitVec 64}
    (h : HasBytes m p (methodHeader p mark key method)) :
    hostTarget m p = match decodeMoviR10 m (p + 38) with
      | some (v, q) => if m q = 0x41 ∧ m (q + 1) = 0x52 then some (.guest v) else none
      | none => (decodeJmp m (p + 38)).map .host := by
  simp only [methodHeader, append_assoc, cons_append, hasBytes_cons] at h
  have hskip : p + 2 + (36 : UInt8).toNat = p + 38 := rfl
  simp only [hostTarget, h.1, h.2.1, if_true, hskip]

/-- A trampoline of a method takes host callers to the guest function it was made for. -/
theorem hostTarget_objc {W : EmulatedProcess} {m entry exit : BitVec 64}
    (h : InPlace (TrampolineCode.ops W p (.objc m method entry exit)) p c) :
    hostTarget c.mem p = some (.guest method.methodImp) := by
  have hbytes := (inPlace_bytes_bytes.mp (inPlace_bytes_movi h)).hasBytes
  rw [hasBytes_append, hasBytes_append, length_append, length_methodHeader] at hbytes
  obtain ⟨⟨hheader, hmovi⟩, hpush⟩ := hbytes
  rw [hostTarget_of_header hheader, decodeMoviR10_moviBytes hmovi]
  rw [← Nat.add_assoc] at hpush
  simp only [hasBytes_cons] at hpush
  simp only [hpush, and_self, if_true]

/-! ### Jumps through the pool -/

variable {dest : BitVec 64}

theorem decodeJmp_near
    (hfits : fitsInt32 ((dest.toNat : ℤ) - q - 5) = true)
    (h : HasBytes m q (0xe9 :: leBytes 4 (BitVec.ofInt 32 ((dest.toNat : ℤ) - q - 5)).toNat)) :
    decodeJmp m q = some dest := by
  rw [hasBytes_cons] at h
  have hrel := h.2.displacement hfits
  have hsum : (q : ℤ) + 5 + ((dest.toNat : ℤ) - q - 5) = dest.toNat := by omega
  simp only [decodeJmp, h.1, if_true, hrel, hsum]
  simp

theorem decodeJmp_far
    (hfits : fitsInt32 ((a : ℤ) - 4 - (q + 2)) = true)
    (hinsn : HasBytes m q
      ([0xff, 0x25] ++ leBytes 4 (BitVec.ofInt 32 ((a : ℤ) - 4 - (q + 2))).toNat))
    (hword : HasBytes m a (leBytes 8 dest.toNat)) : decodeJmp m q = some dest := by
  simp only [cons_append, nil_append, hasBytes_cons] at hinsn
  have hrel : (BitVec.ofNat 32 (m.loadWord (q + 2) 4)).toInt = (a : ℤ) - 4 - (q + 2) :=
    hinsn.2.2.displacement hfits
  have hplace : ((q : ℤ) + 6 + ((a : ℤ) - 4 - (q + 2))).toNat = a := by omega
  have hload := hword.loadWord
  rw [Nat.mod_eq_of_lt (toNat_lt_word dest)] at hload
  simp [decodeJmp, hinsn, hrel, hplace, hload]

namespace TcgContext

theorem newPoolLabel_first {fuel label : ℕ} {s t : TcgContext} {d : BitVec 64}
    (hempty : s.poolLabels = none) (ht : s.newPoolLabel fuel d label = some t) :
    t = { s with
      pool := Function.update s.pool s.poolCur ⟨none, label, d⟩
      poolLabels := some s.poolCur
      poolCur := s.poolCur + poolLabelSize } := by
  cases fuel with
  | zero => cases ht
  | succ fuel =>
    simp only [newPoolLabel, newPoolAlloc, hempty, poolPosition, Option.map_some, linkAfter,
      Function.update_self, Function.update_idem] at ht
    exact (Option.some.inj ht).symm

/-- A list of one cell: the nops, the word and the displacement. -/
theorem tcgOutPoolFinalize_single {fuel p label : ℕ} {s t : TcgContext} {d : BitVec 64}
    (hhead : s.poolLabels = some p) (hcell : s.pool p = ⟨none, label, d⟩)
    (ht : s.tcgOutPoolFinalize fuel = some (.ok, t)) :
    fitsInt32 (((roundUp s.codePtr 8 + 8 : ℕ) : ℤ) - 8 - 4 - label) = true ∧
      t = { ((s.store s.codePtr (replicate (roundUp s.codePtr 8 - s.codePtr) 0x90)).store
          (roundUp s.codePtr 8) (leBytes 8 d.toNat)).store label (leBytes 4
            (BitVec.ofInt 32 (((roundUp s.codePtr 8 + 8 : ℕ) : ℤ) - 8 - 4 - label)).toNat) with
        codePtr := roundUp s.codePtr 8 + 8 } := by
  rw [tcgOutPoolFinalize, hhead] at ht
  generalize roundUp s.codePtr 8 = a at ht ⊢
  cases fuel with
  | zero => cases ht
  | succ fuel =>
    simp only [outPoolWords, store_pool, hcell, outPoolWord, reduceCtorEq, if_false] at ht
    split at ht
    · cases ht
    · split at ht
      · rename_i hfits
        cases fuel with
        | zero => cases ht
        | succ fuel =>
          simp only [outPoolWords, Option.some.injEq, Prod.mk.injEq, true_and] at ht
          exact ⟨hfits, ht.symm⟩
      · cases ht

end TcgContext

theorem HasBytes.store {s : TcgContext} {b : ℕ} (h : HasBytes s.mem a bs)
    (hapart : b + cs.length ≤ a ∨ a + bs.length ≤ b) : HasBytes (s.store b cs).mem a bs := by
  intro k hk
  rw [store_outside s b cs (by omega), h k hk]

theorem hasBytes_store (s : TcgContext) (a : ℕ) (bs : List UInt8) : HasBytes (s.store a bs).mem a bs :=
  fun _ hk => store_inside s a bs hk

theorem HasBytes.congr {m' : Mem} (h : HasBytes m a bs)
    (heq : ∀ k < bs.length, m' (a + k) = m (a + k)) : HasBytes m' a bs :=
  fun k hk => (heq k hk).trans (h k hk)

/-- An instruction of two bytes and a displacement, after nops at `e`, a word at `a` and the
displacement have been written. -/
theorem hasBytes_patched {s : TcgContext} {e : ℕ} {opcode : List UInt8}
    (h : HasBytes s.mem q opcode) (he : q + opcode.length + 4 = e) (ha : e ≤ a)
    (nops disp word : List UInt8) (hdisp : disp.length = 4) :
    HasBytes (((s.store e nops).store a word).store (q + opcode.length) disp).mem q
        (opcode ++ disp) ∧
      HasBytes (((s.store e nops).store a word).store (q + opcode.length) disp).mem a word := by
  refine ⟨hasBytes_append.mpr ⟨?_, hasBytes_store _ _ _⟩, ?_⟩
  · have hnops : HasBytes (s.store e nops).mem q opcode := h.store (.inr (by omega))
    exact (hnops.store (.inr (by omega))).store (.inr le_rfl)
  · exact (hasBytes_store _ a word).store (.inl (by omega))

/-- A far jump at the end of a unit: the instruction, and the pool word that it goes through. -/
theorem farJump_inPlace
    (hfar : fitsInt32 ((dest.toNat : ℤ) - (code + bs.length : ℕ) - 5) = false)
    (h : InPlace [.bytes bs, .branch false dest] code c) :
    ∃ a : ℕ, fitsInt32 ((a : ℤ) - 4 - ((code + bs.length : ℕ) + 2)) = true ∧
      HasBytes c.mem (code + bs.length) ([0xff, 0x25] ++ leBytes 4
        (BitVec.ofInt 32 ((a : ℤ) - 4 - ((code + bs.length : ℕ) + 2))).toNat) ∧
      HasBytes c.mem a (leBytes 8 dest.toNat) := by
  obtain ⟨fuel, s, t, hempty, rfl, ht, -, hmem⟩ := h
  obtain ⟨v, hv, ht⟩ := Option.bind_eq_some_iff.mp ht
  let u := s.codeGenStart.tcgOut bs
  have hu : u.codePtr = s.codeGenPtr + bs.length := rfl
  -- the instruction and its cell
  obtain ⟨w, hw, rfl⟩ : ∃ w, (u.tcgOut [0xff, 0x25]).newPoolLabel fuel dest (u.codePtr + 2) = some w ∧
      w.tcgOut [0, 0, 0, 0] = v := by
    rw [← hu] at hfar
    have hbranch : u.tcgOutBranch fuel false dest = some v := by
      simpa [emitOps, emitOp] using hv
    simp only [tcgOutBranch, hfar, Bool.false_eq_true, if_false] at hbranch
    exact Option.map_eq_some_iff.mp hbranch
  have hnone : (u.tcgOut [0xff, 0x25]).poolLabels = none := by
    simpa [u, tcgOut, codeGenStart] using hempty
  have hwspec := newPoolLabel_first hnone hw
  have hwptr : w.codePtr = u.codePtr + 2 := by rw [hwspec]; rfl
  have hwmem : w.mem = (u.tcgOut [0xff, 0x25]).mem := by rw [hwspec]
  -- the word and the displacement
  obtain ⟨⟨r, x⟩, hx, hrt⟩ := Option.map_eq_some_iff.mp ht
  cases r with
  | overflow => cases hrt
  | tooLarge => cases hrt
  | ok =>
    cases hrt
    have hhead : (w.tcgOut [0, 0, 0, 0]).poolLabels = some (u.tcgOut [0xff, 0x25]).poolCur := by
      simp [tcgOut, hwspec]
    have hcell : (w.tcgOut [0, 0, 0, 0]).pool (u.tcgOut [0xff, 0x25]).poolCur =
        ⟨none, u.codePtr + 2, dest⟩ := by
      simp [tcgOut, hwspec]
    obtain ⟨hfits, rfl⟩ := tcgOutPoolFinalize_single hhead hcell hx
    have hvptr : (w.tcgOut [0, 0, 0, 0]).codePtr = u.codePtr + 6 := by
      show w.codePtr + 4 = _
      rw [hwptr]
    have hle := le_roundUp (u.codePtr + 6) (d := 8) (by omega)
    rw [hvptr] at hfits hmem
    generalize roundUp (u.codePtr + 6) 8 = a at hfits hmem hle
    have hshift : ((a + 8 : ℕ) : ℤ) - 8 - 4 - (u.codePtr + 2 : ℕ) = (a : ℤ) - 4 - (u.codePtr + 2) := by
      omega
    rw [hshift] at hfits hmem
    have hopcode : HasBytes (w.tcgOut [0, 0, 0, 0]).mem u.codePtr [0xff, 0x25] := by
      have hw : HasBytes w.mem u.codePtr [0xff, 0x25] := hwmem ▸ hasBytes_store u u.codePtr _
      exact hw.store (.inr (by rw [hwptr]; rfl))
    obtain ⟨hinsn, hword⟩ := hasBytes_patched hopcode (e := u.codePtr + 6) rfl hle
      (replicate (a - (u.codePtr + 6)) 0x90)
      (leBytes 4 (BitVec.ofInt 32 ((a : ℤ) - 4 - (u.codePtr + 2))).toNat)
      (leBytes 8 dest.toNat) (length_leBytes _ _)
    have hlast := le_roundUp (a + 8) (d := 16) (by omega)
    rw [← hu]
    refine ⟨a, hfits,
      hinsn.congr fun k hk => hmem (u.codePtr + k) (by omega) (lt_of_lt_of_le ?_ hlast),
      hword.congr fun k hk => hmem (a + k) (by omega) (lt_of_lt_of_le ?_ hlast)⟩
    · simp only [length_append, length_leBytes, length_cons, length_nil] at hk
      omega
    · rw [length_leBytes] at hk
      omega

/-- A jump at the end of a unit goes to its destination. -/
theorem decodeJmp_inPlace
    (h : InPlace [.bytes bs, .branch false dest] code c) :
    decodeJmp c.mem (code + bs.length) = some dest ∧
      (c.mem (code + bs.length) = 0xe9 ∨ c.mem (code + bs.length) = 0xff) := by
  by_cases hfits : fitsInt32 ((dest.toNat : ℤ) - (code + bs.length : ℕ) - 5) = true
  · have hbytes : InPlace [.bytes bs, .bytes (0xe9 :: leBytes 4
        (BitVec.ofInt 32 ((dest.toNat : ℤ) - (code + bs.length : ℕ) - 5)).toNat)] code c := by
      obtain ⟨fuel, s, t, hempty, rfl, ht, hle, hmem⟩ := h
      refine ⟨fuel, s, t, hempty, rfl, ?_, hle, hmem⟩
      have hptr : (s.codeGenStart.tcgOut bs).codePtr = s.codeGenPtr + bs.length := rfl
      simp only [codeGenUnit, emitOps, emitOp, tcgOutBranch, Option.bind_some, hptr, hfits,
        if_true, Bool.false_eq_true, if_false] at ht ⊢
      exact ht
    have hnear := (hasBytes_append.mp (inPlace_bytes_bytes.mp hbytes).hasBytes).2
    exact ⟨decodeJmp_near hfits hnear, .inl (hasBytes_cons.mp hnear).1⟩
  · obtain ⟨a, hdisp, hinsn, hword⟩ := farJump_inPlace (Bool.eq_false_iff.mpr hfits) h
    refine ⟨decodeJmp_far hdisp hinsn hword, .inr ?_⟩
    exact (hasBytes_cons.mp hinsn).1

/-- A trampoline of a method made from a block takes host callers to the imp it was made for. -/
theorem hostTarget_impBlock {W : EmulatedProcess} {m : BitVec 64} (h : InPlace (TrampolineCode.ops W p (.impBlock m method)) p c) :
    hostTarget c.mem p = some (.host method.methodImp) := by
  obtain ⟨hjmp, hopcode⟩ := decodeJmp_inPlace h
  rw [length_methodHeader] at hjmp hopcode
  have hmovi : decodeMoviR10 c.mem (p + 38) = none := by
    rcases hopcode with hopcode | hopcode <;> simp [decodeMoviR10, hopcode]
  rw [hostTarget_of_header h.hasBytes, hmovi, hjmp]
  rfl

/-- The copy of the method in a trampoline has the trampoline as its imp. -/
theorem loadWord_methodImp {mark : ℕ} {m : BitVec 64} (hcode : code < 2 ^ 64)
    (h : InPlace (.bytes (methodHeader code mark m method) :: ops) code c) :
    c.mem.loadWord (code + 30) 8 = code := by
  have hword := h.loadWord (n := 8) (v := code) ([0xeb, 36] ++ leBytes 4 mark ++ leBytes 8 m.toNat ++
    leBytes 8 method.methodName.toNat ++ leBytes 8 method.methodTypes.toNat) []
    (by rw [append_nil, methodHeader]) hcode
  simpa using hword

end Iqemu64
