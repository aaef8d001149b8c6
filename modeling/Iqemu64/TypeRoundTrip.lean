import Iqemu64.TypeEncoding

/-!
# Type encodings parse back

The two scanners of the type parser agree on printed types: `moveFwdAggregate` counts brackets and
comes out behind the aggregate as long as the depth fits its counter, and `getType` builds a
descriptor that both conventions lay out as C does.
-/

namespace Iqemu64
open CString List

def Skips (openBrace : Char) (d : ℕ) (w : List Char) : Prop :=
  ∀ (left : BitVec 8) (rest : List Char), left ≠ 0 → left.toNat + d < 256 →
    moveFwdAggregate openBrace left (w ++ rest) = moveFwdAggregate openBrace left rest

namespace Skips
variable {o : Char} {d d' : ℕ} {w w' : List Char}

theorem nil : Skips o d [] := fun _ _ _ _ => rfl

theorem mono (h : Skips o d w) (hd : d ≤ d') : Skips o d' w :=
  fun left rest h0 hlt => h left rest h0 (by omega)

theorem append (h : Skips o d w) (h' : Skips o d w') : Skips o d (w ++ w') := by
  intro left rest h0 hlt
  rw [append_assoc, h left _ h0 hlt, h' left rest h0 hlt]

theorem cons {c : Char} (hopen : c ≠ o) (hclose : c ≠ closeBrace o) (h : Skips o d w) :
    Skips o d (c :: w) := by
  intro left rest h0 hlt
  rw [cons_append, moveFwdAggregate, if_neg h0, if_neg hopen, if_neg hclose]
  exact h left rest h0 hlt

theorem plain (h : ∀ c ∈ w, c ≠ o ∧ c ≠ closeBrace o) : Skips o d w := by
  induction w with
  | nil => exact nil
  | cons c w ih =>
    have hc := h c mem_cons_self
    exact (ih fun e he => h e (mem_cons_of_mem c he)).cons hc.1 hc.2

theorem nest (h : Skips o d w) (hne : closeBrace o ≠ o) :
    Skips o (d + 1) (o :: (w ++ [closeBrace o])) := by
  intro left rest h0 hlt
  have hsucc : (left + 1).toNat = left.toNat + 1 := by
    rw [BitVec.toNat_add]
    exact Nat.mod_eq_of_lt (by simp; omega)
  have hpos : left + 1 ≠ 0 := by
    intro h
    rw [h] at hsucc
    exact absurd hsucc (by simp)
  rw [cons_append, moveFwdAggregate, if_neg h0, if_pos rfl, append_assoc,
    h _ _ hpos (by omega), singleton_append, moveFwdAggregate, if_neg hpos, if_neg hne, if_pos rfl,
    BitVec.add_sub_cancel]

/-- Behind the opening bracket the counter stands at one. -/
theorem moveFwdAggregate (h : Skips o d w) (hne : closeBrace o ≠ o) (hd : d + 1 < 256)
    (rest : List Char) : moveFwdAggregate o 1 (w ++ closeBrace o :: rest) = .ok rest := by
  rw [h 1 _ (by decide) (by simp; omega), Iqemu64.moveFwdAggregate, if_neg (by decide), if_neg hne,
    if_pos rfl]
  cases rest <;> rfl

end Skips

namespace ObjcType

def IsBracket (o : Char) : Prop := o = '{' ∨ o = '['

theorem IsBracket.close_ne {o : Char} (h : IsBracket o) : closeBrace o ≠ o := by
  rcases h with rfl | rfl <;> decide

theorem skips_decimal {o : Char} (ho : IsBracket o) (n d : ℕ) : Skips o d (decimal n) := by
  refine Skips.plain fun c hc => ?_
  have hdigit := isDigit_of_mem_decimal hc
  constructor
  · rintro rfl
    rcases ho with rfl | rfl <;> exact absurd hdigit (by decide)
  · rintro rfl
    rcases ho with rfl | rfl <;> exact absurd hdigit (by decide)

theorem skips_name {o e : Char} (ho : IsBracket o) (name : TypeName e) (d : ℕ) : Skips o d name.1 := by
  refine Skips.plain fun c hc => ?_
  have hname := (name.2 c hc).2
  constructor
  · rintro rfl
    rcases ho with rfl | rfl <;> exact hname (by decide)
  · rintro rfl
    rcases ho with rfl | rfl <;> exact hname (by decide)

variable {ms : List ObjcType}

theorem skips_printAll {o : Char} (h : ∀ m ∈ ms, Skips o (m.depth o) m.print) :
    Skips o (depthAll o ms) (printAll ms) := by
  induction ms with
  | nil => exact Skips.nil
  | cons m ms ih =>
    have htail := ih fun m' hm => h m' (mem_cons_of_mem m hm)
    exact ((h m mem_cons_self).mono (le_max_left _ _)).append (htail.mono (le_max_right _ _))

/-- A text inside brackets of either kind, only one of which the counter sees. -/
theorem skips_bracket {o b : Char} (ho : IsBracket o) (hb : IsBracket b) {d : ℕ} {w : List Char}
    (h : Skips o d w) : Skips o (d + if o = b then 1 else 0) (b :: (w ++ [closeBrace b])) := by
  by_cases hob : o = b
  · subst hob
    rw [if_pos rfl]
    exact h.nest ho.close_ne
  · rw [if_neg hob, Nat.add_zero]
    have hout : ∀ c ∈ [b, closeBrace b], c ≠ o ∧ c ≠ closeBrace o := by
      rcases ho with rfl | rfl <;> rcases hb with rfl | rfl <;>
        first | exact absurd rfl hob | exact forall_mem_of_all (by decide)
    have hopen := hout b mem_cons_self
    exact (h.append (Skips.plain fun c hc => hout c (mem_cons_of_mem b hc))).cons hopen.1 hopen.2

theorem skips_print {o : Char} (ho : IsBracket o) (t : ObjcType) : Skips o (t.depth o) t.print := by
  induction t using induct with
  | code c =>
    refine Skips.plain fun e he => ?_
    rw [mem_singleton.mp he]
    rcases ho with rfl | rfl <;> cases c <;> decide
  | pointer p ih => rcases ho with rfl | rfl <;> exact ih.cons (by decide) (by decide)
  | qualified q t ih =>
    rcases ho with rfl | rfl <;> cases q <;> exact ih.cons (by decide) (by decide)
  | object name =>
    cases name with
    | none => rcases ho with rfl | rfl <;> exact Skips.nil.cons (by decide) (by decide)
    | some name =>
      have hname := skips_name ho name 0
      rcases ho with rfl | rfl
      all_goals
        refine ((hname.append ?_).cons (by decide) (by decide)).cons (by decide) (by decide)
        exact Skips.nil.cons (by decide) (by decide)
  | block =>
    rcases ho with rfl | rfl
    all_goals exact (Skips.nil.cons (by decide) (by decide)).cons (by decide) (by decide)
  | array n e ih =>
    have h := skips_bracket ho (Or.inr rfl) ((skips_decimal ho n _).append ih)
    rw [append_assoc] at h
    exact h
  | struct name ms ih =>
    have heq : Skips o (depthAll o ms) ('=' :: printAll ms) := by
      rcases ho with rfl | rfl <;> exact (skips_printAll ih).cons (by decide) (by decide)
    have h := skips_bracket ho (Or.inl rfl) ((skips_name ho name _).append heq)
    rw [append_assoc] at h
    exact h

def startChars : List Char :=
  ['c', 'i', 's', 'l', 'q', 'C', 'I', 'S', 'L', 'Q', 'f', 'd', 'B', 'v', '*', '#', ':', '^', 'r', 'n',
    'N', 'o', 'O', 'R', 'V', '@', '[', '{']

theorem print_cons (t : ObjcType) : ∃ c w, t.print = c :: w ∧ c ∈ startChars := by
  cases t with
  | code c => exact ⟨_, _, rfl, by cases c <;> decide⟩
  | pointer p => exact ⟨_, _, rfl, by decide⟩
  | qualified q t => exact ⟨_, _, rfl, by cases q <;> decide⟩
  | object name => cases name <;> exact ⟨_, _, rfl, by decide⟩
  | block => exact ⟨_, _, rfl, by decide⟩
  | array n e => exact ⟨_, _, rfl, by decide⟩
  | struct name ms => exact ⟨_, _, rfl, by decide⟩

theorem stops_print {p : Char → Bool} (hp : ∀ c ∈ startChars, p c = false) (t : ObjcType)
    (rest : List Char) : Stops p (t.print ++ rest) := by
  obtain ⟨c, w, hprint, hc⟩ := t.print_cons
  rw [hprint, cons_append]
  exact stops_cons.mpr (hp c hc)

variable {rest : List Char}

theorem stops_printAll {p : Char → Bool} (hp : ∀ c ∈ startChars, p c = false) (ms : List ObjcType) (hrest : Stops p rest) : Stops p (printAll ms ++ rest) := by
  cases ms with
  | nil => exact hrest
  | cons m ms =>
    rw [printAll, append_assoc]
    exact stops_print hp m _

def isObjectTail (c : Char) : Bool := c ∈ ['"', '?', '<']

theorem isObjectTail_startChars : ∀ c ∈ startChars, isObjectTail c = false := forall_mem_of_all (by decide)

theorem isNumeral_startChars : ∀ c ∈ startChars, isNumeral c = false := forall_mem_of_all (by decide)

theorem moveFwdObject_stops (h : Stops isObjectTail rest) :
    moveFwdObject rest = .ok rest := by
  unfold moveFwdObject
  split
  · exact absurd (stops_cons.mp h) (by decide)
  · exact absurd (stops_cons.mp h) (by decide)
  · exact absurd (stops_cons.mp h) (by decide)
  · rfl

theorem moveFwdObject_block (h : Stops isObjectTail rest) :
    moveFwdObject ('?' :: rest) = .ok rest := by
  cases rest with
  | nil => rfl
  | cons c rest =>
    have hc : c ≠ '<' := by
      rintro rfl
      exact absurd (stops_cons.mp h) (by decide)
    unfold moveFwdObject
    split
    · rename_i heq
      exact absurd (List.cons.inj heq).1 (by decide)
    · rename_i heq
      exact absurd (List.cons.inj (List.cons.inj heq).2).1 hc
    · rename_i heq
      rw [(List.cons.inj heq).2]
    · rename_i hne
      exact absurd rfl (hne _)

theorem moveFwdObject_print (name : Option (TypeName '"'))
    (h : Stops isObjectTail rest) : ∃ w, (object name).print = '@' :: w ∧
      moveFwdObject (w ++ rest) = .ok rest ∧ (w ++ rest).head? ≠ some '?' := by
  cases name with
  | none =>
    refine ⟨[], rfl, moveFwdObject_stops h, fun hq => ?_⟩
    exact absurd (h _ hq) (by decide)
  | some name =>
    refine ⟨_, rfl, ?_, by simp⟩
    rw [cons_append, append_assoc]
    exact skipPast_append (fun hmem => (name.2 _ hmem).1 rfl) rest

variable {n : ℕ} {e : ObjcType}

/-- Behind its opening bracket an aggregate is skipped to its end. -/
theorem moveFwdAggregate_array (h : (array n e).Nested) (rest : List Char) :
    moveFwdAggregate '[' 1 (decimal n ++ (e.print ++ [']']) ++ rest) = .ok rest := by
  have ho : IsBracket '[' := Or.inr rfl
  have hskip := (skips_decimal ho n _).append (skips_print ho e)
  have := hskip.moveFwdAggregate (by decide) (by simpa [depth] using h.2) rest
  simpa only [append_assoc, closeBrace, singleton_append] using this

variable {name : TypeName '='}

theorem moveFwdAggregate_struct (h : (struct name ms).Nested)
    (rest : List Char) :
    moveFwdAggregate '{' 1 (name.1 ++ '=' :: (printAll ms ++ ['}']) ++ rest) = .ok rest := by
  have ho : IsBracket '{' := Or.inl rfl
  have hmembers := (skips_printAll fun m (_ : m ∈ ms) => skips_print ho m).cons (c := '=') (by decide)
    (by decide)
  have := ((skips_name ho name _).append hmembers).moveFwdAggregate (by decide)
    (by simpa [depth] using h.1) rest
  simpa only [append_assoc, cons_append, closeBrace, nil_append] using this

/-- `moveFwdAType` moves over a printed type and no further. -/
theorem moveFwdAType_print (t : ObjcType) (h : t.Nested)
    (hrest : Stops isObjectTail rest) : moveFwdAType (t.print ++ rest) = .ok rest := by
  induction t using induct with
  | code c => cases c <;> rfl
  | pointer p ih => exact ih h
  | qualified q t ih => cases q <;> exact ih h
  | object name =>
    obtain ⟨w, hprint, hmove, -⟩ := moveFwdObject_print name hrest
    rw [hprint]
    exact hmove
  | block => exact moveFwdObject_block hrest
  | array n e => exact moveFwdAggregate_array h rest
  | struct name ms => exact moveFwdAggregate_struct h rest

mutual

def ffi : ObjcType → FfiType
  | code c => .mk c.size c.size c.leaf []
  | pointer _ | object _ | block => Scalar.pointer.ffi
  | qualified _ t => t.ffi
  | array n e => .mk 0 0 .struct (replicate n e.ffi)
  | struct _ ms => .mk 0 0 .struct (ffiAll ms)

def ffiAll : List ObjcType → List FfiType
  | [] => []
  | m :: ms => m.ffi :: ffiAll ms

end

def isBlock : ObjcType → Bool
  | block => true
  | qualified _ t => t.isBlock
  | _ => false

def parsed (arrAsAggr : Bool) (t : ObjcType) : ObjcType := if arrAsAggr then t else t.decay

def ParsesAs (arrAsAggr : Bool) (t : ObjcType) : Prop :=
  ∀ (fuel : ℕ) (rest : List Char), t.print.length ≤ fuel → Stops isObjectTail rest →
    getType fuel arrAsAggr (t.print ++ rest) = .ok ((t.parsed arrAsAggr).ffi, t.isBlock, rest)

theorem getMembers_printAll (h : ∀ m ∈ ms, m.ParsesAs true) {fuel : ℕ}
    (hfuel : (printAll ms).length < fuel) (rest : List Char) :
    getMembers fuel '}' (printAll ms ++ '}' :: rest) = .ok (ffiAll ms, rest) := by
  induction ms generalizing fuel with
  | nil =>
    obtain ⟨fuel, rfl⟩ := Nat.exists_eq_add_one.mpr hfuel
    rfl
  | cons m ms ih =>
    obtain ⟨fuel, rfl⟩ := Nat.exists_eq_add_one.mpr (Nat.zero_lt_of_lt hfuel)
    obtain ⟨c, w, hprint, hc⟩ := m.print_cons
    have hlen : (printAll (m :: ms)).length = m.print.length + (printAll ms).length := by
      rw [printAll, length_append]
    have hpos : 0 < m.print.length := by rw [hprint]; exact Nat.succ_pos _
    have hclose : ¬ (m.print ++ (printAll ms ++ '}' :: rest)).head? = some '}' := by
      rw [hprint, cons_append, head?_cons, Option.some.injEq]
      rintro rfl
      exact absurd hc (by decide)
    have hstop : Stops isObjectTail (printAll ms ++ '}' :: rest) :=
      stops_printAll isObjectTail_startChars ms (stops_cons.mpr (by decide))
    rw [printAll, append_assoc, getMembers, if_neg hclose,
      h m mem_cons_self fuel _ (by omega) hstop, ok_bind]
    simp only
    rw [ih (forall_mem_cons.mp h).2 (by omega)]
    rfl

theorem parsesAs_array (h : e.ParsesAs true) (hn : n + 1 < 2 ^ 32) :
    (array n e).ParsesAs true := by
  intro fuel rest hfuel hrest
  have hlen : (array n e).print.length = (decimal n).length + e.print.length + 2 := by
    simp [print]
    omega
  obtain ⟨fuel, rfl⟩ := Nat.exists_eq_add_one.mpr (show 0 < fuel by omega)
  have hstop : Stops Char.isDigit (e.print ++ (']' :: rest)) :=
    (stops_print isNumeral_startChars e _).digit
  have htext : (array n e).print ++ rest = '[' :: (decimal n ++ (e.print ++ (']' :: rest))) := by
    simp [print]
  rw [htext]
  simp only [getType, if_true]
  rw [strtol_decimal hstop, toUnsigned_min (Nat.lt_of_succ_lt hn), h fuel (']' :: rest) (by omega)
    (stops_cons.mpr (by decide)), ok_bind]
  simp only [arrayFfi, Nat.mod_eq_of_lt hn]
  rfl

theorem filled_of_mem (h : FilledAll ms) : ∀ m ∈ ms, m.Filled := by
  induction ms with
  | nil => exact forall_mem_nil _
  | cons m ms ih => exact forall_mem_cons.mpr ⟨h.1, ih h.2⟩

theorem depth_le_depthAll {o : Char} {m : ObjcType} (h : m ∈ ms) :
    m.depth o ≤ depthAll o ms := by
  induction ms with
  | nil => exact absurd h not_mem_nil
  | cons m' ms ih =>
    rcases mem_cons.mp h with rfl | h
    · exact le_max_left _ _
    · exact (ih h).trans (le_max_right _ _)

theorem Nested.member (h : (struct name ms).Nested)
    {m : ObjcType} (hm : m ∈ ms) : m.Nested := by
  have hbrace := depth_le_depthAll (o := '{') hm
  have hbracket := depth_le_depthAll (o := '[') hm
  obtain ⟨h₁, h₂⟩ := h
  simp only [depth] at h₁ h₂
  exact ⟨by omega, by omega⟩

theorem parsesAs_struct (h : ∀ m ∈ ms, m.ParsesAs true)
    (arrAsAggr : Bool) : (struct name ms).ParsesAs arrAsAggr := by
  intro fuel rest hfuel hrest
  have hlen : (struct name ms).print.length = name.1.length + (printAll ms).length + 3 := by
    simp [print]
    omega
  obtain ⟨fuel, rfl⟩ := Nat.exists_eq_add_one.mpr (show 0 < fuel by omega)
  have htext : (struct name ms).print ++ rest =
      '{' :: (name.1 ++ '=' :: (printAll ms ++ ('}' :: rest))) := by
    simp [print]
  rw [htext]
  simp only [getType]
  rw [skipPast_append fun hmem => (name.2 _ hmem).1 rfl, ok_bind,
    getMembers_printAll h (by omega)]
  cases arrAsAggr <;> rfl

theorem getType_print (t : ObjcType) (arrAsAggr : Bool) (hn : t.Nested)
    (hv : (t.parsed arrAsAggr).Filled) : t.ParsesAs arrAsAggr := by
  induction t using induct generalizing arrAsAggr with
  | code c =>
    intro fuel rest hfuel hrest
    obtain ⟨fuel, rfl⟩ := Nat.exists_eq_add_one.mpr hfuel
    cases arrAsAggr <;> cases c <;> rfl
  | pointer p ih =>
    intro fuel rest hfuel hrest
    obtain ⟨fuel, rfl⟩ := Nat.exists_eq_add_one.mpr (Nat.zero_lt_of_lt hfuel)
    have hmove : moveFwdAType (p.print ++ rest) = .ok rest := moveFwdAType_print p hn hrest
    rw [print, cons_append]
    simp only [getType]
    rw [hmove]
    cases arrAsAggr <;> rfl
  | qualified q t ih =>
    intro fuel rest hfuel hrest
    obtain ⟨fuel, rfl⟩ := Nat.exists_eq_add_one.mpr (Nat.zero_lt_of_lt hfuel)
    have hfuel' : t.print.length ≤ fuel := Nat.le_of_succ_le_succ hfuel
    have hv' : (t.parsed arrAsAggr).Filled := by cases arrAsAggr <;> exact hv
    have ht := ih arrAsAggr hn hv' fuel rest hfuel' hrest
    rw [print, cons_append]
    cases q <;> simp only [Qualifier.letter, getType] <;> rw [ht] <;> cases arrAsAggr <;> rfl
  | object name =>
    intro fuel rest hfuel hrest
    obtain ⟨w, hprint, hmove, hhead⟩ := moveFwdObject_print name hrest
    rw [hprint] at hfuel ⊢
    obtain ⟨fuel, rfl⟩ := Nat.exists_eq_add_one.mpr (Nat.zero_lt_of_lt hfuel)
    rw [cons_append]
    simp only [getType, hmove, hhead]
    cases arrAsAggr <;> rfl
  | block =>
    intro fuel rest hfuel hrest
    obtain ⟨fuel, rfl⟩ := Nat.exists_eq_add_one.mpr (Nat.zero_lt_of_lt hfuel)
    simp only [print, cons_append, nil_append, getType, moveFwdObject_block hrest]
    cases arrAsAggr <;> rfl
  | array n e ih =>
    cases arrAsAggr with
    | true =>
      obtain ⟨-, hcount, he⟩ := hv
      have hne : e.Nested := ⟨hn.1, by have := hn.2; simp only [depth] at this; omega⟩
      exact parsesAs_array (ih true hne he) hcount
    | false =>
      intro fuel rest hfuel hrest
      obtain ⟨fuel, rfl⟩ := Nat.exists_eq_add_one.mpr (Nat.zero_lt_of_lt hfuel)
      rw [print, cons_append]
      simp only [getType, Bool.false_eq_true, if_false]
      rw [moveFwdAggregate_array hn]
      rfl
  | struct name ms ih =>
    have hms : FilledAll ms := by cases arrAsAggr <;> exact hv.2
    exact parsesAs_struct (fun m hm => ih m hm true (hn.member hm) (filled_of_mem hms m hm)) arrAsAggr

structure Lays (t : ObjcType) : Prop where
  hasLayout : HasLayout t.ffi t
  size_pos : 0 < t.size
  isAlignment : IsAlignment t.alignment
  aligned : t.size % t.alignment = 0

variable {a : ℕ}

theorem ffiAlign_eq_roundUp (off : ℕ) (ha : IsAlignment a) : ffiAlign off a = roundUp off a := by
  rcases ha with rfl | rfl | rfl | rfl
  · exact ffiAlign_two_pow off 0
  · exact ffiAlign_two_pow off 1
  · exact ffiAlign_two_pow off 2
  · exact ffiAlign_two_pow off 3

theorem IsAlignment.max {b : ℕ} (ha : IsAlignment a) (hb : IsAlignment b) : IsAlignment (max a b) := by
  rcases le_total a b with h | h
  · rwa [max_eq_right h]
  · rwa [max_eq_left h]

variable {ts : List ObjcType}

theorem maxAlignment_isAlignment (h : ∀ t ∈ ts, t.Lays) :
    IsAlignment (maxAlignment ts) := by
  induction ts with
  | nil => exact Or.inl rfl
  | cons t ts ih =>
    exact IsAlignment.max (h t mem_cons_self).isAlignment
      (ih fun t' ht => h t' (mem_cons_of_mem t ht))

theorem le_membersEnd (h : ∀ t ∈ ts, t.Lays) (off : ℕ) : off ≤ membersEnd ts off := by
  induction ts generalizing off with
  | nil => exact le_rfl
  | cons t ts ih =>
    have ht := (h t mem_cons_self).isAlignment
    have hround := (ffiAlign_spec off ht).1
    rw [ffiAlign_eq_roundUp off ht] at hround
    have := ih (forall_mem_cons.mp h).2 (roundUp off t.alignment + t.size)
    rw [membersEnd]
    omega

/-- The element loop of `initialize_aggregate` from an alignment that is already set. -/
theorem initializeElements_ffi (h : ∀ t ∈ ts, t.Lays) (off : ℕ)
    (ha : 1 ≤ a) : ∃ ds, initializeElements (ts.map ffi) off a =
        some (ds, membersEnd ts off, max a (maxAlignment ts)) ∧ FfiType.leavesAll ds = leavesAll ts := by
  induction ts generalizing off a with
  | nil => exact ⟨[], by rw [maxAlignment, max_eq_left ha]; rfl, rfl⟩
  | cons t ts ih =>
    have ht := h t mem_cons_self
    obtain ⟨d, hinit, hleaves, hsize, halign⟩ := ht.hasLayout
    have hmax : (if a > d.alignment then a else d.alignment) = max a t.alignment := by
      rw [halign]
      split_ifs <;> omega
    obtain ⟨ds, hds, hleavesAll⟩ := ih (forall_mem_cons.mp h).2
      (roundUp off t.alignment + t.size) (a := max a t.alignment) (le_max_of_le_left ha)
    refine ⟨d :: ds, ?_, ?_⟩
    · rw [map_cons, initializeElements]
      change (initializeType t.ffi).bind _ = _
      rw [hinit, Option.bind_some]
      simp only
      rw [hmax, halign, hsize, ffiAlign_eq_roundUp off ht.isAlignment, hds, maxAlignment, ← max_assoc]
      rfl
    · rw [FfiType.leavesAll, leavesAll, hleaves, hleavesAll]

/-- An aggregate of the given members, as the conventions lay it out. -/
theorem initializeType_aggregate (hne : ts ≠ []) (h : ∀ t ∈ ts, t.Lays) :
    0 < membersEnd ts 0 ∧ ∃ ds, initializeType (.mk 0 0 .struct (ts.map ffi)) =
        some (.mk (roundUp (membersEnd ts 0) (maxAlignment ts)) (maxAlignment ts) .struct ds) ∧
      FfiType.leavesAll ds = leavesAll ts := by
  have halignAll := maxAlignment_isAlignment h
  obtain ⟨t, ts, rfl⟩ := exists_cons_of_ne_nil hne
  have ht := h t mem_cons_self
  have hts : ∀ t' ∈ ts, t'.Lays := fun t' ht => h t' (mem_cons_of_mem t ht)
  obtain ⟨d, hinit, hleaves, hsize, halign⟩ := ht.hasLayout
  have hpos : 0 < membersEnd (t :: ts) 0 := by
    have := le_membersEnd hts (roundUp 0 t.alignment + t.size)
    have := ht.size_pos
    rw [membersEnd]
    omega
  have hone : 1 ≤ t.alignment := by
    rcases ht.isAlignment with h | h | h | h <;> omega
  obtain ⟨ds, hds, hleavesAll⟩ := initializeElements_ffi hts (roundUp 0 t.alignment + t.size) hone
  refine ⟨hpos, d :: ds, ?_, by rw [FfiType.leavesAll, leavesAll, hleaves, hleavesAll]⟩
  have hfirst : initializeElements ((t :: ts).map ffi) 0 0 =
      some (d :: ds, membersEnd (t :: ts) 0, maxAlignment (t :: ts)) := by
    rw [map_cons, initializeElements]
    change (initializeType t.ffi).bind _ = _
    rw [hinit, Option.bind_some]
    simp only
    rw [if_neg (Nat.not_lt_zero _), halign, hsize, ffiAlign_eq_roundUp 0 ht.isAlignment, hds]
    rfl
  change initializeAggregate (.mk 0 0 .struct _) = _
  rw [initializeAggregate, hfirst, Option.bind_some]
  simp only
  rw [ffiAlign_eq_roundUp _ halignAll, if_neg]
  have := (ffiAlign_spec (membersEnd (t :: ts) 0) halignAll).1
  rw [ffiAlign_eq_roundUp _ halignAll] at this
  omega

theorem roundUp_mod (off : ℕ) (ha : IsAlignment a) : roundUp off a % a = 0 := by
  rw [← ffiAlign_eq_roundUp off ha]
  exact (ffiAlign_spec off ha).2.2

theorem roundUp_of_aligned {off : ℕ} (ha : IsAlignment a) (h : off % a = 0) : roundUp off a = off := by
  have hspec := ffiAlign_spec off ha
  rw [ffiAlign_eq_roundUp off ha] at hspec
  rcases ha with rfl | rfl | rfl | rfl <;> omega

theorem mul_mod_alignment (h : e.Lays) (n : ℕ) : n * e.size % e.alignment = 0 := by
  rw [Nat.mul_mod, h.aligned, Nat.mul_zero, Nat.zero_mod]

theorem membersEnd_replicate (h : e.Lays) (n off : ℕ) (hoff : off % e.alignment = 0) :
    membersEnd (replicate n e) off = off + n * e.size := by
  induction n generalizing off with
  | zero => simp [membersEnd]
  | succ n ih =>
    have hnext : (off + e.size) % e.alignment = 0 := by
      rw [Nat.add_mod, hoff, h.aligned, Nat.zero_mod]
    rw [replicate_succ, membersEnd, roundUp_of_aligned h.isAlignment hoff, ih _ hnext]
    ring

theorem maxAlignment_replicate (h : e.Lays) (n : ℕ) :
    maxAlignment (replicate (n + 1) e) = e.alignment := by
  have hone : 1 ≤ e.alignment := by
    rcases h.isAlignment with h | h | h | h <;> omega
  induction n with
  | zero => exact max_eq_left hone
  | succ n ih => rw [replicate_succ, maxAlignment, ih, max_self]

theorem leavesAll_replicate (e : ObjcType) (n : ℕ) :
    leavesAll (replicate n e) = (replicate n e.leaves).flatten := by
  induction n with
  | zero => rfl
  | succ n ih => rw [replicate_succ, leavesAll, ih, replicate_succ, flatten_cons]

theorem ffiAll_eq_map (ms : List ObjcType) : ffiAll ms = ms.map ffi := by
  induction ms with
  | nil => rfl
  | cons m ms ih => rw [ffiAll, ih, map_cons]

theorem lays_array (hn : 0 < n) (h : e.Lays) : (array n e).Lays := by
  obtain ⟨n, rfl⟩ := Nat.exists_eq_add_one.mpr hn
  have hmem : ∀ t ∈ replicate (n + 1) e, t.Lays := fun t ht => by
    rw [eq_of_mem_replicate ht]
    exact h
  obtain ⟨-, ds, hinit, hleaves⟩ := initializeType_aggregate (by simp) hmem
  rw [membersEnd_replicate h _ _ (Nat.zero_mod _), maxAlignment_replicate h, Nat.zero_add,
    roundUp_of_aligned h.isAlignment (mul_mod_alignment h _), map_replicate] at hinit
  refine ⟨⟨_, hinit, ?_, rfl, rfl⟩, Nat.mul_pos hn h.size_pos, h.isAlignment, mul_mod_alignment h _⟩
  rw [FfiType.leaves, if_pos rfl, hleaves, leavesAll_replicate, leaves]

theorem lays_struct (hne : ms ≠ [])
    (h : ∀ m ∈ ms, m.Lays) : (struct name ms).Lays := by
  have halign := maxAlignment_isAlignment h
  obtain ⟨hpos, ds, hinit, hleaves⟩ := initializeType_aggregate hne h
  have hround := (ffiAlign_spec (membersEnd ms 0) halign).1
  rw [ffiAlign_eq_roundUp _ halign] at hround
  rw [← ffiAll_eq_map] at hinit
  refine ⟨⟨_, hinit, ?_, rfl, rfl⟩, Nat.lt_of_lt_of_le hpos hround, halign, roundUp_mod _ halign⟩
  rw [FfiType.leaves, if_pos rfl, hleaves, leaves]

theorem size_isAlignment (c : TypeCode) : IsAlignment c.size := by
  cases c <;> simp [TypeCode.size, IsAlignment]

theorem lays_code (c : TypeCode) : (code c).Lays := by
  refine ⟨⟨(code c).ffi, ?_, ?_, rfl, rfl⟩, ?_, size_isAlignment c, Nat.mod_self _⟩
  · cases c <;> rfl
  · cases c <;> rfl
  · cases c <;> decide

theorem lays (t : ObjcType) (h : t.Filled) : t.Lays := by
  have height : IsAlignment 8 := Or.inr (Or.inr (Or.inr rfl))
  induction t using induct with
  | code c => exact lays_code c
  | pointer p => exact ⟨⟨_, rfl, rfl, rfl, rfl⟩, Nat.zero_lt_succ 7, height, Nat.mod_self 8⟩
  | qualified q t ih => exact ⟨(ih h).hasLayout, (ih h).size_pos, (ih h).isAlignment, (ih h).aligned⟩
  | object name => exact ⟨⟨_, rfl, rfl, rfl, rfl⟩, Nat.zero_lt_succ 7, height, Nat.mod_self 8⟩
  | block => exact ⟨⟨_, rfl, rfl, rfl, rfl⟩, Nat.zero_lt_succ 7, height, Nat.mod_self 8⟩
  | array n e ih => exact lays_array h.1 (ih h.2.2)
  | struct name ms ih => exact lays_struct h.1 fun m hm => ih m hm (filled_of_mem h.2 m hm)

def Separated (q : ObjcType × List Char) : Prop := q.1.Nested ∧ Stops isObjectTail q.2

theorem pointeesAll_separated (h : ∀ m ∈ ms, m.Nested → ∀ rest,
      Stops isObjectTail rest → ∀ q ∈ m.pointees rest, Separated q) (hn : ∀ m ∈ ms, m.Nested) (hrest : Stops isObjectTail rest) : ∀ q ∈ pointeesAll ms rest, Separated q := by
  induction ms with
  | nil => exact forall_mem_nil _
  | cons m ms ih =>
    have htail := stops_printAll isObjectTail_startChars ms hrest
    rw [pointeesAll]
    refine forall_mem_append.mpr ⟨h m mem_cons_self (hn m mem_cons_self) _ htail, ?_⟩
    exact ih (forall_mem_cons.mp h).2 fun m' hm =>
      hn m' (mem_cons_of_mem m hm)

theorem pointees_separated (t : ObjcType) (h : t.Nested) (rest : List Char)
    (hrest : Stops isObjectTail rest) : ∀ q ∈ t.pointees rest, Separated q := by
  induction t using induct generalizing rest with
  | code c => exact forall_mem_nil _
  | pointer p ih => exact forall_mem_cons.mpr ⟨⟨h, hrest⟩, ih h rest hrest⟩
  | qualified q t ih => exact ih h rest hrest
  | object name => exact forall_mem_nil _
  | block => exact forall_mem_nil _
  | array n e ih =>
    have hne : e.Nested := ⟨h.1, by have := h.2; simp only [depth] at this; omega⟩
    exact ih hne _ (stops_cons.mpr (by decide))
  | struct name ms ih =>
    exact pointeesAll_separated ih (fun m hm => h.member hm) (stops_cons.mpr (by decide))

end ObjcType

namespace TypeSignature
open ObjcType

def Passable (t : ObjcType) : Prop := t.Nested ∧ t.decay.Filled

theorem stops_printArgs {p : Char → Bool} (hp : ∀ c ∈ startChars, p c = false) (as : List OffsetType) :
    Stops p (printArgs as) := by
  cases as with
  | nil => exact stops_nil p
  | cons a as => exact stops_print hp a.type _

theorem stops_offset (a : OffsetType) (as : List OffsetType) :
    Stops isObjectTail (a.offset ++ printArgs as) := by
  have hdigit : ∀ c : Char, c.isDigit = true → isObjectTail c = false := by
    intro c hc
    by_contra htail
    simp only [isObjectTail, decide_eq_true_eq, Bool.not_eq_false, mem_cons, not_mem_nil,
      or_false] at htail
    rcases htail with rfl | rfl | rfl <;> exact absurd hc (by decide)
  obtain ⟨type, offset, hnumber⟩ := a
  cases hnumber with
  | empty => exact stops_printArgs isObjectTail_startChars as
  | @unsigned ds hds hne =>
    obtain ⟨d, ds, rfl⟩ := exists_cons_of_ne_nil hne
    exact stops_cons.mpr (hdigit d (hds d mem_cons_self))
  | @signed c ds hc =>
    refine stops_cons.mpr ?_
    simp only [isSign, Bool.or_eq_true, decide_eq_true_eq] at hc
    rcases hc with rfl | rfl <;> rfl

def parsedType (a : OffsetType) : ParsedType := ⟨a.type.decay.ffi, a.type.isBlock⟩

theorem getOffsetType_print {a : OffsetType} (h : Passable a.type) (as : List OffsetType) {fuel : ℕ}
    (hfuel : a.type.print.length ≤ fuel) :
    getOffsetType fuel (printArgs (a :: as)) = .ok (parsedType a, printArgs as) := by
  have hparse := a.type.getType_print false h.1 h.2 fuel _ hfuel (stops_offset a as)
  rw [getOffsetType, printArgs, hparse]
  simp only [ok_map]
  rw [strtol_number a.isNumber (stops_printArgs isNumeral_startChars as)]
  rfl

variable {as : List OffsetType}

theorem getArgTypes_print (h : ∀ a ∈ as, Passable a.type) {fuel : ℕ}
    (hfuel : (printArgs as).length < fuel) :
    getArgTypes fuel (printArgs as) = .ok (as.map parsedType, []) := by
  induction as generalizing fuel with
  | nil =>
    obtain ⟨fuel, rfl⟩ := Nat.exists_eq_add_one.mpr hfuel
    rfl
  | cons a as ih =>
    obtain ⟨fuel, rfl⟩ := Nat.exists_eq_add_one.mpr (Nat.zero_lt_of_lt hfuel)
    obtain ⟨c, w, hprint, -⟩ := a.type.print_cons
    have hne : printArgs (a :: as) ≠ [] := by
      rw [printArgs, hprint]
      exact cons_ne_nil _ _
    have hlen : (printArgs (a :: as)).length =
        a.type.print.length + (a.offset.length + (printArgs as).length) := by
      simp only [printArgs, length_append]
    have hpos : 0 < a.type.print.length := by rw [hprint]; exact Nat.succ_pos _
    rw [getArgTypes, if_neg hne, getOffsetType_print (h a mem_cons_self) as (by omega),
      ok_bind]
    simp only
    rw [ih (forall_mem_cons.mp h).2 (by omega)]
    rfl

theorem pointeesArgs_separated (h : ∀ a ∈ as, a.type.Nested) :
    ∀ q ∈ pointeesArgs as, Separated q := by
  induction as with
  | nil => exact forall_mem_nil _
  | cons a as ih =>
    refine forall_mem_append.mpr ⟨?_, ih fun a' ha => h a' (mem_cons_of_mem a ha)⟩
    exact a.type.pointees_separated (h a mem_cons_self) _ (stops_offset a as)

theorem forall₂_parsedType (h : ∀ a ∈ as, Passable a.type) :
    List.Forall₂ (fun ty (a : OffsetType) => HasLayout ty.ffi a.type.decay) (as.map parsedType) as := by
  rw [forall₂_map_left_iff, forall₂_same]
  exact fun a ha => (a.type.decay.lays (h a ha).2).hasLayout

def ofArgument (t : ObjcType) : TypeSignature :=
  ⟨⟨code .void, [], .empty⟩, [⟨t, [], .empty⟩]⟩

def structS (ms : List ObjcType) : ObjcType := struct ⟨['S'], forall_mem_of_all (by decide)⟩ ms

theorem not_roundTrip {t : ObjcType} {p : ParsedTypes} {ty : ParsedType}
    (hparse : handleTypes (ofArgument t).print = .ok (some p)) (hargs : p.args = [ty])
    (hinit : initializeType ty.ffi = none) : ¬ (ofArgument t).RoundTrip := by
  rintro ⟨⟨p', hp, -, -, hlayout⟩, -⟩
  obtain rfl := Option.some.inj (Except.ok.inj (hparse.symm.trans hp))
  rw [hargs] at hlayout
  cases hlayout with
  | cons head tail =>
    obtain ⟨desc, hdesc, -⟩ := head
    exact absurd (hinit.symm.trans hdesc) (by simp)

/-- Where arrays are nested so deep that the counter wraps, the scan ends at an opening bracket. -/
theorem moveFwdAggregate_wraps (t : ObjcType) (k : ℕ) (left : BitVec 8) (hleft : left ≠ 0)
    (hk : left.toNat + k + 1 = 256) (rest : List Char) :
    ∃ w, w ≠ [] ∧ moveFwdAggregate '[' left (((array 1)^[k + 1] t).print ++ rest) = .ok w := by
  induction k generalizing left rest with
  | zero =>
    have hwrap : left + 1 = 0 := by
      apply BitVec.eq_of_toNat_eq
      rw [BitVec.toNat_add]
      simp
      omega
    refine ⟨'1' :: (t.print ++ [']']) ++ rest, by simp, ?_⟩
    change moveFwdAggregate '[' left ('[' :: '1' :: (t.print ++ [']']) ++ rest) = _
    rw [cons_append, moveFwdAggregate, if_neg hleft, if_pos rfl, hwrap, cons_append,
      moveFwdAggregate, if_pos rfl]
  | succ k ih =>
    have hsucc : (left + 1).toNat = left.toNat + 1 := by
      rw [BitVec.toNat_add]
      exact Nat.mod_eq_of_lt (by simp; omega)
    have hne : left + 1 ≠ 0 := by
      intro h
      rw [h] at hsucc
      exact absurd hsucc (by simp)
    obtain ⟨w, hw, hmove⟩ := ih (left + 1) hne (by omega) ([']'] ++ rest)
    refine ⟨w, hw, ?_⟩
    rw [Function.iterate_succ_apply']
    change moveFwdAggregate '[' left ('[' :: '1' :: (((array 1)^[k + 1] t).print ++ [']']) ++ rest) = _
    rw [cons_append, moveFwdAggregate, if_neg hleft, if_pos rfl, cons_append,
      moveFwdAggregate, if_neg hne, if_neg (by decide), if_neg (by decide), append_assoc]
    exact hmove

theorem not_roundTrip_deepArray (t : ObjcType) {k : ℕ} (hk : k = 254) :
    ¬ (ofArgument (pointer ((array 1)^[k + 2] t))).RoundTrip := by
  obtain ⟨w, hw, hwrap⟩ := moveFwdAggregate_wraps t k 1 (by decide) (by rw [hk]; rfl) ([']'] ++ [])
  rw [Function.iterate_succ_apply']
  generalize (array 1)^[k + 1] t = e at hwrap ⊢
  rintro ⟨-, hpointees⟩
  have hmove : moveFwdAggregate '[' 1 ('1' :: (e.print ++ [']']) ++ []) = .ok [] :=
    hpointees (array 1 e, []) mem_cons_self
  rw [cons_append, moveFwdAggregate, if_neg (by decide), if_neg (by decide), if_neg (by decide),
    append_assoc, hwrap] at hmove
  exact hw (Except.ok.inj hmove)

end TypeSignature

end Iqemu64
