import Iqemu64.XxPrepCif
import Iqemu64.FlatVector

/-!
# Eightbyte classes of flat types

A flat type of at most 16 bytes has an integer or a vector class for each of its eightbytes, and a
larger one is passed in memory. The argument is an invariant of the member loop: the words before the
current offset have a class from a set closed under merging, and the later ones are still empty.
-/

namespace Iqemu64
open List Option RegClass Classes Scalar

namespace FlatType

def scalarClass (s : Scalar) (off : ℕ) : RegClass :=
  match s with
  | .float => if off % 8 = 0 then .ssesf else .sse
  | .double => .ssedf
  | _ => if off + s.size ≤ 4 then .integersi else .integer

theorem classifyInteger_of_le (cs : Classes) {size : ℕ} (h : size ≤ 8) :
    classifyInteger cs size = some (1, cs.set 0 (if size ≤ 4 then .integersi else .integer)) := by
  unfold classifyInteger
  split_ifs <;> rfl

theorem classifyArgument_scalar (s : Scalar) (cs : Classes) (off : ℕ) (hoff : off + s.size ≤ 8) :
    classifyArgument s.ffi cs off = some (1, cs.set 0 (scalarClass s off)) := by
  have hint := classifyInteger_of_le cs hoff
  cases s <;> first | exact hint | rfl

structure ClassSet where
  mem : RegClass → Prop
  isArg : ∀ c, mem c → c.isGpr ∨ c.isSse
  merge : ∀ c d, mem c → mem d → mem (mergeClasses c d)

def argClasses : ClassSet where
  mem c := c.isGpr ∨ c.isSse
  isArg _ h := h
  merge c d := by cases c <;> cases d <;> simp [isGpr, isSse, mergeClasses]

def sseClasses : ClassSet where
  mem c := c.isSse
  isArg _ h := Or.inr h
  merge c d := by cases c <;> cases d <;> simp [isSse, mergeClasses]

namespace ClassSet

variable (P : ClassSet)

theorem merge_noClass {c : RegClass} (h : P.mem c) : mergeClasses c .noClass = c := by
  have := P.isArg c h
  cases c <;> simp_all [isGpr, isSse, mergeClasses]

structure Filled (words off : ℕ) (cs : Classes) : Prop where
  done : ∀ i < (off + 7) / 8, ∃ c, cs i = some c ∧ P.mem c
  todo : ∀ i, (off + 7) / 8 ≤ i → i < words → cs i = some .noClass

end ClassSet

variable {c d : RegClass}

theorem mergeFrom_one (cs sub : Classes) (pos : ℕ) (hc : sub 0 = some c)
    (hd : cs pos = some d) : cs.mergeFrom sub pos 1 = some (cs.set pos (mergeClasses c d)) := by
  simp [mergeFrom, range_succ, hc, hd]

variable {cs : Classes}

theorem filled_set {P : ClassSet} {words off off' size : ℕ}
    (h : P.Filled words off cs) (hc : P.mem c) (hsize : 0 < size) (hle : off ≤ off')
    (hgap : off' < (off + 7) / 8 * 8 + 8) (hfit : off' % 8 + size ≤ 8)
    (hwords : off' + size ≤ 8 * words) :
    ∃ d, cs (off' / 8) = some d ∧ P.Filled words (off' + size) (cs.set (off' / 8) (mergeClasses c d)) := by
  have hend : (off' + size + 7) / 8 = off' / 8 + 1 := by omega
  -- the word is either the last classified one or the first empty one
  have hword : ∃ d, cs (off' / 8) = some d ∧ P.mem (mergeClasses c d) := by
    by_cases hlt : off' / 8 < (off + 7) / 8
    · obtain ⟨d, hd, hdP⟩ := h.done _ hlt
      exact ⟨d, hd, P.merge c d hc hdP⟩
    · refine ⟨.noClass, h.todo _ (by omega) (by omega), ?_⟩
      rw [P.merge_noClass hc]
      exact hc
  obtain ⟨d, hd, hdP⟩ := hword
  refine ⟨d, hd, ?_, ?_⟩
  · intro i hi
    by_cases hpos : i = off' / 8
    · subst hpos
      exact ⟨_, if_pos rfl, hdP⟩
    · rw [Classes.set, if_neg hpos]
      exact h.done i (by omega)
  · intro i hi hiw
    rw [Classes.set, if_neg (by omega)]
    exact h.todo i (by omega) hiw

theorem scalar_fits (s : Scalar) (off : ℕ) :
    off ≤ ffiAlign off s.size ∧ ffiAlign off s.size < (off + 7) / 8 * 8 + 8 ∧
      ffiAlign off s.size % 8 + s.size ≤ 8 := by
  have h := ffiAlign_spec off s.size_isAlignment
  rcases s.size_isAlignment with ha | ha | ha | ha <;> rw [ha] at h ⊢ <;> omega

theorem classifyElements_scalars (P : ClassSet) (ss : List Scalar)
    (hP : ∀ s ∈ ss, ∀ off, P.mem (scalarClass s off)) (words off : ℕ) (sub cs : Classes)
    (h : P.Filled words off cs) (hend : endOffset ss off ≤ 8 * words) :
    ∃ cs', classifyElements (ss.map Scalar.ffi) sub cs off = some (true, cs') ∧
      P.Filled words (endOffset ss off) cs' := by
  induction ss generalizing off sub cs with
  | nil => exact ⟨cs, rfl, h⟩
  | cons s ss ih =>
    obtain ⟨hle, hgap, hfit⟩ := scalar_fits s off
    have hrest := endOffset_ge ss (ffiAlign off s.size + s.size)
    have hend' : endOffset ss (ffiAlign off s.size + s.size) ≤ 8 * words := hend
    obtain ⟨d, hd, hfill⟩ := filled_set h (hP s mem_cons_self (ffiAlign off s.size % 8))
      s.size_pos hle hgap hfit (by omega)
    obtain ⟨cs', hrun, hfill'⟩ := ih (forall_mem_cons.mp hP).2
      (ffiAlign off s.size + s.size) (sub.set 0 (scalarClass s (ffiAlign off s.size % 8))) _ hfill hend'
    refine ⟨cs', ?_, hfill'⟩
    have hal : s.ffi.alignment = s.size := rfl
    have hsz : s.ffi.size = s.size := rfl
    rw [map_cons, classifyElements]
    simp only [hal, hsz]
    rw [classifyArgument_scalar s sub _ hfit]
    have hsub : (sub.set 0 (scalarClass s (ffiAlign off s.size % 8))) 0 =
        some (scalarClass s (ffiAlign off s.size % 8)) := if_pos rfl
    rw [bind_some, if_neg one_ne_zero, mergeFrom_one cs _ _ hsub hd]
    exact hrun

theorem isArg_ne (h : c.isGpr ∨ c.isSse) :
    c ≠ .memory ∧ c ≠ .sseup ∧ c ≠ .x87 ∧ c ≠ .x87up ∧ c ≠ .complexX87 := by
  cases c <;> simp_all [isGpr, isSse]

theorem wide_eq {P : ClassSet} {words : ℕ}
    (h : ∀ i < words, ∃ c, cs i = some c ∧ P.mem c) (hw : words ≤ 4) :
    cs.wide words = some (decide (words ≤ 2)) := by
  by_cases h2 : words ≤ 2
  · simp [wide, h2]
  · -- three or four words; the second one is no continuation of a vector
    obtain ⟨c₀, h₀, -⟩ := h 0 (by omega)
    obtain ⟨c₁, h₁, hP₁⟩ := h 1 (by omega)
    obtain ⟨c₂, h₂, -⟩ := h 2 (by omega)
    have hne := (isArg_ne (P.isArg c₁ hP₁)).2.1
    obtain rfl | rfl : words = 3 ∨ words = 4 := by omega
    · by_cases hs : c₀ = .sse <;> simp [wide, h₀, h₁, h₂, hne, hs, range_succ]
    · obtain ⟨c₃, h₃, -⟩ := h 3 (by omega)
      by_cases hs : c₀ = .sse <;> simp [wide, h₀, h₁, h₂, h₃, hne, hs, range_succ]

theorem cleanup_eq {P : ClassSet} (is : List ℕ) (his : ∀ i ∈ is, i < 2)
    (h : ∀ i ∈ is, ∃ c, cs i = some c ∧ P.mem c) : cs.cleanup is = some (true, cs) := by
  induction is with
  | nil => rfl
  | cons i is ih =>
    obtain ⟨c, hc, hP⟩ := h i mem_cons_self
    have hne := (isArg_ne (P.isArg c hP)).1
    have hi : ¬ 1 < i := by
      have := his i mem_cons_self
      omega
    have hrest := ih (forall_mem_cons.mp his).2
      (forall_mem_cons.mp h).2
    simp [cleanup, hc, hne, hi, hrest]

theorem struct_words (s : Scalar) (ss : List Scalar) :
    ((struct s ss).size + 7) / 8 = (endOffset (s :: ss) 0 + 7) / 8 ∧
      endOffset (s :: ss) 0 ≤ (struct s ss).size := by
  have ha := (struct s ss).alignment_isAlignment
  have h := ffiAlign_spec (endOffset (s :: ss) 0) ha
  have hsz : (struct s ss).size =
    ffiAlign (endOffset (s :: ss) 0) (struct s ss).alignment := rfl
  rw [hsz]
  rcases ha with ha | ha | ha | ha <;> rw [ha] at h ⊢ <;> omega

/-- A flat struct of at most 16 bytes has a class for each eightbyte; a larger one is passed in
memory. -/
theorem classifyArgument_struct (P : ClassSet) (s : Scalar) (ss : List Scalar)
    (hP : ∀ x ∈ s :: ss, ∀ off, P.mem (scalarClass x off)) (cs₀ : Classes) :
    ∃ n cs, classifyArgument (struct s ss).desc cs₀ 0 = some (n, cs) ∧
      n = (if (struct s ss).size ≤ 16 then ((struct s ss).size + 7) / 8 else 0) ∧
      ∀ i < n, ∃ c, cs i = some c ∧ P.mem c := by
  obtain ⟨hwords, hle⟩ := struct_words s ss
  have hpos := (struct s ss).size_pos
  have hdesc : (struct s ss).desc =
    .mk (struct s ss).size (struct s ss).alignment .struct ((s :: ss).map Scalar.ffi) := rfl
  rw [hdesc, classifyArgument]
  by_cases h32 : (struct s ss).size > 32
  · refine ⟨0, cs₀, if_pos h32, ?_, fun i hi => absurd hi (by omega)⟩
    rw [if_neg (by omega)]
  · set words := ((struct s ss).size + 7) / 8 with hw
    have hfill₀ : P.Filled words 0 (cs₀.clear words) :=
      ⟨fun i hi => absurd hi (by omega), fun i _ hi => if_pos hi⟩
    obtain ⟨cs, hrun, hfill⟩ := classifyElements_scalars P (s :: ss) hP words 0 .uninitialised
      (cs₀.clear words) hfill₀ (by omega)
    have hdone : ∀ i < words, ∃ c, cs i = some c ∧ P.mem c := fun i hi =>
      hfill.done i (by omega)
    have hwide := wide_eq hdone (by omega)
    have hw' : ((struct s ss).size + 8 - 1) / 8 = words := by omega
    simp only [h32, if_false, hw', show words ≠ 0 by omega, hrun, hwide, bind_eq_bind,
      bind_some, Bool.not_true, Bool.false_eq_true]
    by_cases h16 : (struct s ss).size ≤ 16
    · have hclean := cleanup_eq (range words)
        (fun i hi => by have := mem_range.mp hi; omega)
        (fun i hi => hdone i (mem_range.mp hi))
      refine ⟨words, cs, ?_, (if_pos h16).symm, hdone⟩
      simp [show words ≤ 2 by omega, hclean]
    · refine ⟨0, cs, ?_, (if_neg h16).symm, fun i hi => absurd hi (by omega)⟩
      simp [show ¬ words ≤ 2 by omega]

theorem scalarClass_argClasses (s : Scalar) (off : ℕ) : argClasses.mem (scalarClass s off) := by
  cases s <;> simp only [scalarClass, argClasses] <;> first | decide | (split_ifs <;> decide)

theorem scalarClass_sseClasses {s : Scalar} (hs : s = .float ∨ s = .double) (off : ℕ) :
    sseClasses.mem (scalarClass s off) := by
  rcases hs with rfl | rfl
  · simp only [scalarClass, sseClasses]
    split_ifs <;> decide
  · exact rfl

theorem mapM_classes {P : ClassSet} (is : List ℕ)
    (h : ∀ i ∈ is, ∃ c, cs i = some c ∧ P.mem c) :
    ∃ l, is.mapM (fun i => cs i) = some l ∧ l.length = is.length ∧ ∀ c ∈ l, P.mem c := by
  induction is with
  | nil => exact ⟨[], rfl, rfl, by simp⟩
  | cons i is ih =>
    obtain ⟨c, hc, hP⟩ := h i mem_cons_self
    obtain ⟨l, hl, hlen, hmem⟩ := ih fun j hj => h j (mem_cons_of_mem i hj)
    refine ⟨c :: l, by simp [hc, hl], by simp [hlen], ?_⟩
    intro d hd
    rcases mem_cons.mp hd with rfl | hd
    · exact hP
    · exact hmem d hd

def wordCount (t : FlatType) : ℕ := if t.size ≤ 16 then (t.size + 7) / 8 else 0

theorem classifyArgument_desc (P : ClassSet) (t : FlatType)
    (hP : ∀ x ∈ t.members, ∀ off, P.mem (scalarClass x off)) :
    ∃ cs, classifyArgument t.desc .uninitialised 0 = some (t.wordCount, cs) ∧
      ∀ i < t.wordCount, ∃ c, cs i = some c ∧ P.mem c := by
  cases t with
  | scalar s =>
    have hone : (scalar s).wordCount = 1 := by cases s <;> rfl
    have hle : 0 + s.size ≤ 8 := by cases s <;> decide
    refine ⟨uninitialised.set 0 (scalarClass s 0), ?_, ?_⟩
    · rw [hone]
      exact classifyArgument_scalar s _ 0 hle
    · intro i hi
      obtain rfl : i = 0 := by omega
      exact ⟨_, if_pos rfl, hP s mem_cons_self 0⟩
  | struct s ss =>
    obtain ⟨n, cs, hrun, hn, hcs⟩ := classifyArgument_struct P s ss hP .uninitialised
    subst hn
    exact ⟨cs, hrun, hcs⟩

theorem examineArgument_of_classes (P : ClassSet) (t : FlatType)
    (hP : ∀ x ∈ t.members, ∀ off, P.mem (scalarClass x off)) :
    ∃ l, l.length = t.wordCount ∧ (∀ c ∈ l, P.mem c) ∧ ∀ inReturn,
      examineArgument t.desc inReturn =
        some ⟨l, l.countP isGpr, l.countP isSse⟩ := by
  obtain ⟨cs, hrun, hcs⟩ := classifyArgument_desc P t hP
  obtain ⟨l, hl, hlen, hmem⟩ := mapM_classes (range t.wordCount)
    fun i hi => hcs i (mem_range.mp hi)
  refine ⟨l, by simpa using hlen, hmem, fun inReturn => ?_⟩
  have hne := fun c hc => isArg_ne (P.isArg c (hmem c hc))
  have hm : memory ∉ l := fun h => (hne _ h).1 rfl
  have hx : l.any (fun c => c = .x87 ∨ c = .x87up ∨ c = .complexX87) = false := by
    rw [List.any_eq_false]
    intro c hc
    have := hne c hc
    simp [this.2.2.1, this.2.2.2.1, this.2.2.2.2]
  simp only [examineArgument, hrun, hl, bind_eq_bind, bind_some, hm, if_false, hx,
    Bool.false_eq_true]
  rfl

def classes (t : FlatType) : List RegClass :=
  match examineArgument t.desc false with
  | some e => e.classes
  | none => []

theorem examineArgument_desc (t : FlatType) (inReturn : Bool) :
    examineArgument t.desc inReturn =
      some ⟨t.classes, t.classes.countP isGpr, t.classes.countP isSse⟩ := by
  obtain ⟨l, -, -, h⟩ := examineArgument_of_classes argClasses t fun x _ => scalarClass_argClasses x
  have hl : t.classes = l := by rw [classes, h]
  rw [h, hl]

theorem classes_length (t : FlatType) : t.classes.length = t.wordCount := by
  obtain ⟨l, hlen, -, h⟩ := examineArgument_of_classes argClasses t fun x _ => scalarClass_argClasses x
  rw [classes, h]
  exact hlen

theorem classes_isArg (t : FlatType) : ∀ c ∈ t.classes, c.isGpr ∨ c.isSse := by
  obtain ⟨l, -, hmem, h⟩ := examineArgument_of_classes argClasses t fun x _ => scalarClass_argClasses x
  rw [classes, h]
  exact hmem

variable {t : FlatType}

/-- Every eightbyte of a vector type is in a vector register on x86-64 too. -/
theorem classes_isSse (ht : t.vector ≠ none) : ∀ c ∈ t.classes, c.isSse := by
  have hP : ∀ x ∈ t.members, ∀ off, sseClasses.mem (scalarClass x off) := by
    intro x hx
    apply scalarClass_sseClasses
    cases t with
    | scalar s =>
      obtain rfl := mem_singleton.mp hx
      cases x <;> simp_all [vector]
    | struct s ss =>
      simp only [vector, ne_eq, ite_eq_right_iff, reduceCtorEq, imp_false, not_not] at ht
      rcases mem_cons.mp hx with rfl | hx
      · exact ht.1
      · rw [ht.2.1 x hx]
        exact ht.1
  obtain ⟨l, -, hmem, h⟩ := examineArgument_of_classes sseClasses t hP
  rw [classes, h]
  exact hmem

theorem isGpr_mergeClasses (hc : c.isGpr ∨ c.isSse)
    (hd : d.isGpr ∨ d.isSse ∨ d = .noClass) (h : c.isGpr ∨ d.isGpr) : (mergeClasses c d).isGpr := by
  cases c <;> cases d <;> simp_all [isGpr, isSse, mergeClasses]

def Scalar.isInteger : Scalar → Bool
  | .float | .double => false
  | _ => true

theorem scalarClass_isGpr {s : Scalar} (hs : Scalar.isInteger s) (off : ℕ) :
    (scalarClass s off).isGpr := by
  cases s <;> first | (simp only [scalarClass]; split_ifs <;> rfl) | cases hs

/-- Members of a single eightbyte, one of them an integer or an eightbyte already of integer class. -/
theorem classifyElements_integer (ss : List Scalar) (off : ℕ) (sub cs : Classes)
    (hend : endOffset ss off ≤ 8) (hd : cs 0 = some d) (harg : d.isGpr ∨ d.isSse ∨ d = .noClass)
    (hint : d.isGpr ∨ ∃ s ∈ ss, Scalar.isInteger s) :
    ∃ cs' c, classifyElements (ss.map Scalar.ffi) sub cs off = some (true, cs') ∧
      cs' 0 = some c ∧ c.isGpr := by
  induction ss generalizing off sub cs d with
  | nil => exact ⟨cs, d, rfl, hd, hint.resolve_right (by simp)⟩
  | cons s ss ih =>
    have hpos := s.size_pos
    have hrest := endOffset_ge ss (ffiAlign off s.size + s.size)
    have hend' : endOffset ss (ffiAlign off s.size + s.size) ≤ 8 := hend
    set c := scalarClass s (ffiAlign off s.size) with hc
    have hcarg : c.isGpr ∨ c.isSse := scalarClass_argClasses s _
    -- the member's class is merged into the only word
    have hrun : classifyElements ((s :: ss).map Scalar.ffi) sub cs off =
        classifyElements (ss.map Scalar.ffi) (sub.set 0 c) (cs.set 0 (mergeClasses c d))
          (ffiAlign off s.size + s.size) := by
      rw [map_cons, classifyElements]
      change (classifyArgument s.ffi sub (ffiAlign off s.size % 8)).bind _ = _
      rw [Nat.mod_eq_of_lt (by omega), classifyArgument_scalar s sub _ (by omega), bind_some]
      simp only [one_ne_zero, if_false]
      change (cs.mergeFrom (sub.set 0 c) (ffiAlign off s.size / 8) 1).bind _ = _
      rw [Nat.div_eq_of_lt (by omega), mergeFrom_one cs _ 0 (if_pos rfl) hd]
      rfl
    rw [hrun]
    refine ih _ _ _ hend' (if_pos rfl) ?_ ?_
    · by_cases hg : c.isGpr ∨ d.isGpr
      · exact Or.inl (isGpr_mergeClasses hcarg harg hg)
      · rcases harg with h | h | rfl
        · exact absurd (Or.inr h) hg
        · have := sseClasses.merge c d (hcarg.resolve_left fun h' => hg (Or.inl h')) h
          exact Or.inr (Or.inl this)
        · rw [argClasses.merge_noClass hcarg]
          exact Or.inr (Or.inl (hcarg.resolve_left fun h' => hg (Or.inl h')))
    · rcases hint with h | ⟨x, hx, hxi⟩
      · exact Or.inl (isGpr_mergeClasses hcarg harg (Or.inr h))
      · rcases mem_cons.mp hx with rfl | hx
        · exact Or.inl (isGpr_mergeClasses hcarg harg (Or.inl (scalarClass_isGpr hxi _)))
        · exact Or.inr ⟨x, hx, hxi⟩

/-- A type of at most eight bytes that is no vector has an integer member. -/
theorem exists_integer_of_small (hv : t.vector = none) (h8 : t.size ≤ 8) :
    ∃ s ∈ t.members, Scalar.isInteger s := by
  by_contra hno
  have hvec : ∀ s ∈ t.members, s = .float ∨ s = .double := by
    intro s hs
    have hs : ¬ Scalar.isInteger s := fun h => hno ⟨s, hs, h⟩
    cases s <;> first | exact Or.inl rfl | exact Or.inr rfl | exact absurd rfl hs
  cases t with
  | scalar s => rcases hvec s mem_cons_self with rfl | rfl <;> cases hv
  | struct s ss =>
    have hs := hvec s mem_cons_self
    have hsize := (struct_words s ss).2
    match ss with
    | [] => rcases hs with rfl | rfl <;> cases hv
    | [x] =>
      rcases hs with rfl | rfl <;> rcases hvec x (by simp [members]) with rfl | rfl <;>
        revert hv h8 <;> decide
    | x :: y :: zs =>
      -- three members take at least twelve bytes
      have hfour : ∀ z : Scalar, z = .float ∨ z = .double → 4 ≤ z.size := by
        rintro z (rfl | rfl) <;> decide
      have h₁ := hfour s hs
      have h₂ := hfour x (hvec x (by simp [members]))
      have h₃ := hfour y (hvec y (by simp [members]))
      have a₁ := (ffiAlign_spec 0 s.size_isAlignment).1
      have a₂ := (ffiAlign_spec (ffiAlign 0 s.size + s.size) x.size_isAlignment).1
      have a₃ := (ffiAlign_spec (ffiAlign (ffiAlign 0 s.size + s.size) x.size + x.size)
        y.size_isAlignment).1
      have hend := endOffset_ge zs
        (ffiAlign (ffiAlign (ffiAlign 0 s.size + s.size) x.size + x.size) y.size + y.size)
      simp only [endOffset] at hsize
      omega

/-- A type of at most eight bytes that is no vector is in a general register on x86-64 too. -/
theorem classes_isGpr_of_small (hv : t.vector = none) (h8 : t.size ≤ 8) :
    ∀ c ∈ t.classes, c.isGpr := by
  obtain ⟨x, hx, hxi⟩ := exists_integer_of_small hv h8
  have hpos := t.size_pos
  have hone : t.wordCount = 1 := by
    rw [wordCount, if_pos (by omega)]
    omega
  suffices h : ∃ cs c, classifyArgument t.desc .uninitialised 0 = some (1, cs) ∧ cs 0 = some c ∧
      c.isGpr by
    obtain ⟨cs, c, hrun, hc, hg⟩ := h
    have hcs : t.classes = [c] := by
      have hex := t.examineArgument_desc false
      simp only [examineArgument, hrun, bind_eq_bind, bind_some] at hex
      rw [show range 1 = [0] from rfl] at hex
      simp only [mapM_cons, mapM_nil, hc] at hex
      have hne := isArg_ne (Or.inl hg)
      simp [hne.2.2.1, hne.2.2.2.1, hne.2.2.2.2, Ne.symm hne.1] at hex
      exact hex.1.symm
    intro d hd
    rw [hcs] at hd
    rwa [mem_singleton.mp hd]
  cases t with
  | scalar s =>
    obtain rfl := mem_singleton.mp hx
    refine ⟨_, _, classifyArgument_scalar x _ 0 ?_, if_pos rfl, scalarClass_isGpr hxi 0⟩
    cases x <;> decide
  | struct s ss =>
    obtain ⟨cs, c, hrun, hc, hg⟩ := classifyElements_integer (s :: ss) 0 .uninitialised
      (Classes.uninitialised.clear 1) ((struct_words s ss).2.trans h8) (if_pos zero_lt_one)
      (Or.inr (Or.inr rfl)) (Or.inr ⟨x, hx, hxi⟩)
    have hclean : cs.cleanup [0] = some (true, cs) := by
      refine cleanup_eq (P := argClasses) [0] (by simp) fun i hi => ?_
      obtain rfl := mem_singleton.mp hi
      exact ⟨c, hc, Or.inl hg⟩
    refine ⟨cs, c, ?_, hc, hg⟩
    rw [desc, classifyArgument]
    have hw : ((struct s ss).size + 8 - 1) / 8 = 1 := by omega
    simp only [hw, show ¬ (struct s ss).size > 32 by omega, if_false, one_ne_zero, hrun,
      bind_eq_bind, bind_some, Bool.not_true, Bool.false_eq_true, Classes.wide,
      show (1 : ℕ) ≤ 2 by omega, if_true, pure, show range 1 = [0] from rfl, hclean]

end FlatType

end Iqemu64
