import Iqemu64.Layout
import Iqemu64.ArgViews

/-!
# Where results are

`RetPlaced` pairs the AArch64 and x86-64 places of a result. Two classifications that know nothing of
each other meet in only these combinations. `guestRetAddr` and `hostRet` say where the bytes of a
result are on either side.
-/

namespace Iqemu64
open ByteMemory List Option ABIArgInfo

def ResultType.ofFlat : Option FlatType → ResultType
  | none => .void
  | some t => t.result

def retSize : Option FlatType → ℕ
  | none => 0
  | some t => t.size

def retWidening : Option FlatType → Option (Bool × ℕ)
  | some (.scalar .uint8) => some (false, 1)
  | some (.scalar .sint8) => some (true, 1)
  | some (.scalar .uint16) => some (false, 2)
  | some (.scalar .sint16) => some (true, 2)
  | _ => none

def AReg.width : AReg → ℕ
  | .s _ | .w _ => 4
  | .d _ | .x _ => 8
  | .q _ => 16

def ABIArgInfo.guestRetAddr (L : EnvLayout) (env x8 : ℕ) (a : ABIArgInfo AReg) (k : ℕ) : ℕ :=
  if a.indirect then x8 + k
  else
    let width := (a.teGetReg 0).elim 1 AReg.width
    env + a64Enum2Offset L (a.teGetReg (k / width)) + k % width

section GuestRet
variable {L : EnvLayout} {env x8 n k : ℕ}

/-- A result in vector registers with `w` bytes in each. -/
theorem guestRetAddr_vector {bank : ℕ → AReg} {w : ℕ}
    (hbank : ∀ j, (bank j).width = w ∧ a64Enum2Offset L (some (bank j)) = L.zregs + 256 * j)
    (hk : k < w * n) : guestRetAddr L env x8 { loc := .regs (aaRegs bank 0 n) } k =
      env + (L.zregs + 256 * (k / w)) + k % w := by
  have hw : 0 < w := Nat.pos_of_mul_pos_right (Nat.zero_lt_of_lt hk)
  have hreg : ∀ j < n, (aaInRegs bank 0 n 0).teGetReg j = some (bank j) := fun j hj => by
    rw [teGetReg_aaInRegs hj, Nat.zero_add]
  have hn : 0 < n := Nat.pos_of_mul_pos_left (Nat.zero_lt_of_lt hk)
  change guestRetAddr L env x8 (aaInRegs bank 0 n 0) k = _
  rw [guestRetAddr, if_neg Bool.false_ne_true]
  simp only [hreg 0 hn, elim_some, (hbank 0).1, hreg _ (Nat.div_lt_of_lt_mul hk), (hbank _).2]

theorem guestRetAddr_general (hk : k < 8 * n) :
    guestRetAddr L env x8 { loc := .regs (aaRegs .x 0 n) } k = env + k := by
  have hreg : ∀ j < n, (aaInRegs .x 0 n 0).teGetReg j = some (.x j) := fun j hj => by
    rw [teGetReg_aaInRegs hj, Nat.zero_add]
  change guestRetAddr L env x8 (aaInRegs .x 0 n 0) k = _
  rw [guestRetAddr, if_neg Bool.false_ne_true]
  simp only [hreg 0 (by omega), elim_some, AReg.width, hreg _ (show k / 8 < n by omega),
    a64Enum2Offset]
  omega

theorem guestRetAddr_word (hk : k < 4) :
    guestRetAddr L env x8 { loc := .regs (aaRegs .w 0 1) } k = env + k := by
  change guestRetAddr L env x8 (aaInRegs .w 0 1 0) k = _
  rw [guestRetAddr, if_neg Bool.false_ne_true]
  change env + a64Enum2Offset L ((aaInRegs .w 0 1 0).teGetReg (k / 4)) + k % 4 = _
  rw [Nat.div_eq_of_lt hk, Nat.mod_eq_of_lt hk]
  rfl

end GuestRet

def wordRet : Scalar → Option (XReg × LocInfo)
  | .uint8 => some (.al, .zext8to32)
  | .sint8 => some (.al, .sext8to32)
  | .uint16 => some (.ax, .zext16to32)
  | .sint16 => some (.ax, .sext16to32)
  | .uint32 | .sint32 => some (.eax, .full)
  | _ => none

def IsPairRet (xs : List (XReg × LocInfo)) : Prop :=
  xs = [(.rax, .full), (.rdx, .full)] ∨ xs = [(.rax, .full), (.xmm 0, .full)] ∨
    xs = [(.xmm 0, .full), (.rax, .full)] ∨ xs = [(.xmm 0, .full), (.xmm 1, .full)]

inductive RetPlaced : Option FlatType → ABIArgInfo AReg → ABIArgInfo XReg → Prop
  | void : RetPlaced none {} {}
  | word {s : Scalar} {p : XReg × LocInfo} (h : wordRet s = some p) :
      RetPlaced (some (.scalar s)) { loc := .regs (aaRegs .w 0 1) } { loc := .regs [p] }
  | general {t : FlatType} (h8 : t.size = 8) :
      RetPlaced (some t) { loc := .regs (aaRegs .x 0 1) } { loc := .regs [(.rax, .full)] }
  | pair {t : FlatType} {xs : List (XReg × LocInfo)} (hw : retWidening (some t) = none)
      (h16 : t.size ≤ 16) (hxs : IsPairRet xs) :
      RetPlaced (some t) { loc := .regs (aaRegs .x 0 2) } { loc := .regs xs }
  | float {t : FlatType} (h4 : t.size = 4) :
      RetPlaced (some t) { loc := .regs (aaRegs .s 0 1) } { loc := .regs [(.xmm 0, .full)] }
  | floats2 {t : FlatType} (h8 : t.size = 8) :
      RetPlaced (some t) { loc := .regs (aaRegs .s 0 2) } { loc := .regs [(.xmm 0, .full)] }
  | floats {t : FlatType} {n : ℕ} (hn : n = 3 ∨ n = 4) (hsize : t.size = 4 * n) :
      RetPlaced (some t) { loc := .regs (aaRegs .s 0 n) }
        { loc := .regs [(.xmm 0, .full), (.xmm 1, .full)] }
  | double {t : FlatType} (h8 : t.size = 8) :
      RetPlaced (some t) { loc := .regs (aaRegs .d 0 1) } { loc := .regs [(.xmm 0, .full)] }
  | doubles2 {t : FlatType} (h16 : t.size = 16) :
      RetPlaced (some t) { loc := .regs (aaRegs .d 0 2) }
        { loc := .regs [(.xmm 0, .full), (.xmm 1, .full)] }
  | doublesMem {t : FlatType} {n : ℕ} (hn : n = 3 ∨ n = 4) (hsize : t.size = 8 * n) :
      RetPlaced (some t) { loc := .regs (aaRegs .d 0 n) }
        { loc := .regs [(.rdi, .full)], indirect := true }
  | mem {t : FlatType} (h16 : 16 < t.size) :
      RetPlaced (some t) { loc := .regs (aaRegs .x 8 1), indirect := true }
        { loc := .regs [(.rdi, .full)], indirect := true }

namespace FlatType

theorem result_aaRet_struct (s : Scalar) (ss : List Scalar) :
    (struct s ss).result.aaRet = (if vfpCode (struct s ss).vector = 0 then
        if (struct s ss).size > 16 then .inMem
        else if (struct s ss).size = 16 then .int128
        else if (struct s ss).size = 8 then .int64
        else .int128
      else .vfp (vfpCode (struct s ss).vector)) := by
  rw [result]
  simp only [aaRetFlags_struct, getD_some]

theorem result_xxRet_struct (s : Scalar) (ss : List Scalar) :
    (struct s ss).result.xxRet = xxStructRet (struct s ss).size (struct s ss).classes := by
  rw [result]
  simp only [xxRetFlags_struct, getD_some]

theorem classes_cases (t : FlatType) :
    (16 < t.size ∧ t.classes = []) ∨ (t.size ≤ 8 ∧ ∃ c, t.classes = [c]) ∨
      (8 < t.size ∧ t.size ≤ 16 ∧ ∃ c d, t.classes = [c, d]) := by
  have hlen := t.classes_length
  have hpos := t.size_pos
  rw [wordCount] at hlen
  split_ifs at hlen with h16
  · by_cases h8 : t.size ≤ 8
    · exact Or.inr (Or.inl ⟨h8, length_eq_one_iff.mp (by omega)⟩)
    · exact Or.inr (Or.inr ⟨by omega, h16, length_eq_two.mp (by omega)⟩)
  · exact Or.inl ⟨by omega, length_eq_zero_iff.mp hlen⟩

theorem sseClassP_of_isSse {c : RegClass} (h : c.isSse = true) : c.sseClassP = true := by
  rw [RegClass.sseClassP, h, Bool.true_or]

theorem sseClassP_of_isGpr {c : RegClass} (h : c.isGpr = true) : c.sseClassP = false := by
  cases c <;> first | rfl | cases h

theorem retPlaced_vector {s : Scalar} {ss : List Scalar} {elems width : ℕ}
    (hv : (struct s ss).vector = some (elems, width)) :
    RetPlaced (some (struct s ss)) (aaRetInfo (struct s ss).result.aaRet)
      (xxRetInfo (struct s ss).result.xxRet) := by
  obtain ⟨h1, h4, hwidth, hsize⟩ := vector_spec hv
  have hsse : ∀ c ∈ (struct s ss).classes, c.sseClassP = true := fun c hc =>
    sseClassP_of_isSse (classes_isSse (by rw [hv]; simp) c hc)
  have haa : (struct s ss).result.aaRet = .vfp (vfpCode (some (elems, width))) := by
    rw [result_aaRet_struct, if_neg (vfpCode_some hv).1, hv]
  rw [haa, result_xxRet_struct]
  rcases (struct s ss).classes_cases with ⟨h16, hcs⟩ | ⟨h8, c, hcs⟩ | ⟨h8, h16, c, d, hcs⟩
  · -- three or four doubles
    obtain rfl : width = 8 := by rcases hwidth with rfl | rfl <;> omega
    rw [hcs]
    obtain rfl | rfl : elems = 3 ∨ elems = 4 := by omega
    · exact .doublesMem (Or.inl rfl) hsize
    · exact .doublesMem (Or.inr rfl) hsize
  · have hc := hsse c (by rw [hcs]; exact mem_cons_self)
    rw [hcs]
    rcases hwidth with rfl | rfl
    · obtain rfl | rfl : elems = 1 ∨ elems = 2 := by omega
      · rw [hsize]
        simp only [xxStructRet, head?_cons, any_some, hc]
        exact .float hsize
      · rw [hsize]
        simp only [xxStructRet, head?_cons, any_some, hc]
        exact .floats2 hsize
    · obtain rfl : elems = 1 := by omega
      rw [hsize]
      simp only [xxStructRet, head?_cons, any_some, hc]
      exact .double hsize
  · have hc := hsse c (by rw [hcs]; exact mem_cons_self)
    have hd := hsse d (by rw [hcs]; simp)
    have hret : xxStructRet (struct s ss).size [c, d] = .stXmm0Xmm1 := by
      simp [xxStructRet, hc, hd, show (struct s ss).size ≠ 4 by omega,
        show (struct s ss).size ≠ 8 by omega]
    rw [hcs, hret]
    rcases hwidth with rfl | rfl
    · obtain rfl | rfl : elems = 3 ∨ elems = 4 := by omega
      · exact .floats (Or.inl rfl) hsize
      · exact .floats (Or.inr rfl) hsize
    · obtain rfl : elems = 2 := by omega
      exact .doubles2 hsize

theorem isPairRet_xxStructRet {size : ℕ} (h8 : size ≠ 8) (c : RegClass) (cs : List RegClass)
    (h4 : size = 4 → c.sseClassP = false) (hone : cs = [] → c.sseClassP = false) (hcs : cs.length ≤ 1) :
    ∃ xs, xxRetInfo (xxStructRet size (c :: cs)) = { loc := .regs xs } ∧ IsPairRet xs := by
  have h4' : ¬ (size = 4 ∧ c.sseClassP = true) := by
    rintro ⟨h, hc⟩
    rw [h4 h] at hc
    cases hc
  match cs, hcs with
  | [], _ =>
    rw [show xxStructRet size [c] = .stRaxRdx by simp [xxStructRet, h8, hone rfl]]
    exact ⟨_, rfl, Or.inl rfl⟩
  | [d], _ =>
    cases hc : c.sseClassP <;> cases hd : d.sseClassP
    · rw [show xxStructRet size [c, d] = .stRaxRdx by simp [xxStructRet, h8, hc, hd]]
      exact ⟨_, rfl, Or.inl rfl⟩
    · rw [show xxStructRet size [c, d] = .stRaxXmm0 by simp [xxStructRet, h8, hc, hd]]
      exact ⟨_, rfl, Or.inr (Or.inl rfl)⟩
    · rw [show xxStructRet size [c, d] = .stXmm0Rax by
        simp [xxStructRet, h8, hc, hd, show size ≠ 4 from fun h => h4' ⟨h, hc⟩]]
      exact ⟨_, rfl, Or.inr (Or.inr (Or.inl rfl))⟩
    · rw [show xxStructRet size [c, d] = .stXmm0Xmm1 by
        simp [xxStructRet, h8, hc, hd, show size ≠ 4 from fun h => h4' ⟨h, hc⟩]]
      exact ⟨_, rfl, Or.inr (Or.inr (Or.inr rfl))⟩

theorem retPlaced_general {s : Scalar} {ss : List Scalar} (hv : (struct s ss).vector = none) :
    RetPlaced (some (struct s ss)) (aaRetInfo (struct s ss).result.aaRet)
      (xxRetInfo (struct s ss).result.xxRet) := by
  rw [result_aaRet_struct, result_xxRet_struct, hv, if_pos (show vfpCode none = 0 from rfl)]
  rcases (struct s ss).classes_cases with ⟨h16, hcs⟩ | ⟨h8, c, hcs⟩ | ⟨h8, h16, c, d, hcs⟩
  · rw [if_pos h16, hcs]
    exact .mem h16
  · have hc : c.sseClassP = false := sseClassP_of_isGpr
      (classes_isGpr_of_small hv h8 c (by rw [hcs]; exact mem_cons_self))
    rw [if_neg (by omega), if_neg (by omega), hcs]
    split_ifs with heq
    · rw [heq]
      simp only [xxStructRet, head?_cons, any_some, hc]
      exact .general heq
    · obtain ⟨xs, hxs, hpair⟩ := isPairRet_xxStructRet heq c [] (fun _ => hc) (fun _ => hc)
        (Nat.zero_le 1)
      rw [hxs]
      exact .pair rfl (by omega) hpair
  · obtain ⟨xs, hxs, hpair⟩ := isPairRet_xxStructRet (show (struct s ss).size ≠ 8 by omega) c [d]
      (fun h => by omega) (fun h => by cases h) le_rfl
    rw [if_neg (by omega), hcs, hxs]
    split_ifs with h₁ h₂
    · exact .pair rfl h16 hpair
    · omega
    · exact .pair rfl h16 hpair

end FlatType

theorem retPlaced_ofFlat (r : Option FlatType) :
    RetPlaced r (aaRetInfo (ResultType.ofFlat r).aaRet) (xxRetInfo (ResultType.ofFlat r).xxRet) := by
  match r with
  | none => exact .void
  | some (.scalar s) =>
    cases s with
    | uint8 | sint8 | uint16 | sint16 | uint32 | sint32 => exact .word rfl
    | uint64 | sint64 | pointer => exact .general rfl
    | float => exact .float rfl
    | double => exact .double rfl
  | some (.struct s ss) =>
    cases hv : (FlatType.struct s ss).vector with
    | some v => exact FlatType.retPlaced_vector hv
    | none => exact FlatType.retPlaced_general hv

theorem RetPlaced.counts {r : Option FlatType} {a : ABIArgInfo AReg} {x : ABIArgInfo XReg}
    (hr : RetPlaced r a x) : x.teNumOfReg = 0 ↔ a.teNumOfReg = 0 := by
  cases hr with
  | void => decide
  | word _ | general _ | float _ | double _ | mem _ =>
    simp [teNumOfReg, regs, aaRegs]
  | pair _ _ hxs => rcases hxs with rfl | rfl | rfl | rfl <;> decide
  | floats2 _ | doubles2 _ => decide
  | floats hn _ | doublesMem hn _ => rcases hn with rfl | rfl <;> decide

theorem retWidening_some {r : Option FlatType} {signed : Bool} {width : ℕ}
    (h : retWidening r = some (signed, width)) : retSize r = width ∧ (width = 1 ∨ width = 2) := by
  unfold retWidening at h
  split at h <;> cases h
  · exact ⟨rfl, Or.inl rfl⟩
  · exact ⟨rfl, Or.inl rfl⟩
  · exact ⟨rfl, Or.inr rfl⟩
  · exact ⟨rfl, Or.inr rfl⟩

end Iqemu64
