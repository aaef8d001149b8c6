import Iqemu64.FlatClasses
import Iqemu64.TypeTree

/-!
# Eightbyte classes of nested types

`classifyArgument` fails when it reads an element of a class array that was never written.
`classifyOver` is the same function on arrays that hold arbitrary stale classes, as the stack does.

On a nested aggregate the source returns one class for each eightbyte of its size, counted from the
eightbyte the aggregate starts in. An aggregate that starts late in an eightbyte may reach one more,
and the leaves there are lost. `counted` lists the leaves that are not, and the classes of a struct of
at most 16 bytes are the merge of theirs.
-/

namespace Iqemu64
open List Option FlatType Classes

namespace Classes

def ofArray (f : ℕ → RegClass) : Classes := fun i => some (f i)

theorem set_ofArray (f : ℕ → RegClass) (i : ℕ) (c : RegClass) :
    (ofArray f).set i c = ofArray (Function.update f i c) := by
  funext j
  by_cases h : j = i
  · subst h
    simp [set, ofArray]
  · simp [set, ofArray, h]

theorem clear_ofArray (f : ℕ → RegClass) (n : ℕ) :
    (ofArray f).clear n = ofArray fun i => if i < n then .noClass else f i := by
  funext j
  by_cases h : j < n <;> simp [clear, ofArray, h]

theorem mergeFrom_ofArray (f g : ℕ → RegClass) (pos num : ℕ) :
    (ofArray f).mergeFrom (ofArray g) pos num = some (ofArray fun j =>
      if pos ≤ j ∧ j < pos + num then mergeClasses (g (j - pos)) (f j) else f j) := by
  induction num with
  | zero =>
    rw [mergeFrom, range_zero, foldlM_nil]
    refine congrArg some (congrArg ofArray (funext fun j => ?_))
    rw [if_neg (by omega)]
  | succ num ih =>
    rw [mergeFrom] at ih ⊢
    rw [range_succ, foldlM_append, ih]
    simp only [foldlM_cons, foldlM_nil, ofArray, bind_eq_bind, bind_some,
      Option.pure_def, show ¬ (pos ≤ num + pos ∧ num + pos < pos + num) by omega, if_false]
    refine congrArg some (funext fun j => ?_)
    simp only [set, ofArray]
    by_cases hj : j = num + pos
    · subst hj
      rw [if_pos rfl, if_pos (by omega), Nat.add_sub_cancel]
    · rw [if_neg hj]
      by_cases hin : pos ≤ j ∧ j < pos + num
      · rw [if_pos hin, if_pos (by omega)]
      · rw [if_neg hin, if_neg (by omega)]

theorem cleanup_of_ne_memory {cs : Classes} {is : List ℕ} (his : ∀ i ∈ is, i < 2)
    (h : ∀ i ∈ is, ∃ c, cs i = some c ∧ c ≠ .memory) : cs.cleanup is = some (true, cs) := by
  induction is with
  | nil => rfl
  | cons i is ih =>
    obtain ⟨c, hc, hne⟩ := h i mem_cons_self
    have hi : ¬ 1 < i := by
      have := his i mem_cons_self
      omega
    have hrest := ih (forall_mem_cons.mp his).2
      (forall_mem_cons.mp h).2
    simp [cleanup, hc, hne, hi, hrest]

end Classes

mutual

/-- `classify_argument` over arrays with stale contents: `stale path` is what the array of the
activation at `path` holds when that activation starts. Only structs use such an array. -/
def classifyOver (stale : List ℕ → ℕ → RegClass) :
    FfiType → List ℕ → Classes → ℕ → Option (ℕ × Classes)
  | .mk size alignment type elements, path, classes, byteOffset =>
    match type with
    | .struct =>
      let words := (size + 8 - 1) / 8
      if size > 32 then some (0, classes)
      else if words = 0 then some (1, classes.set 0 .noClass)
      else do
        let (inRegs, classes) ← classifyMembersOver stale elements path 0 (.ofArray (stale path))
          (classes.clear words) byteOffset
        if !inRegs then return (0, classes)
        if !(← classes.wide words) then return (0, classes)
        let (inRegs, classes) ← classes.cleanup (range words)
        return (if inRegs then words else 0, classes)
    | _ => classifyArgument (.mk size alignment type elements) classes byteOffset

def classifyMembersOver (stale : List ℕ → ℕ → RegClass) :
    List FfiType → List ℕ → ℕ → Classes → Classes → ℕ → Option (Bool × Classes)
  | [], _, _, _, classes, _ => some (true, classes)
  | e :: es, path, k, sub, classes, byteOffset =>
    let byteOffset := ffiAlign byteOffset e.alignment
    (classifyOver stale e (k :: path) sub (byteOffset % 8)).bind fun (num, sub) =>
      if num = 0 then some (false, classes)
      else
        (classes.mergeFrom sub (byteOffset / 8) num).bind fun classes =>
          classifyMembersOver stale es path (k + 1) sub classes (byteOffset + e.size)

end

def RegClass.isLeafClass (c : RegClass) : Bool := c.isGpr || c.isSse || c = .noClass

variable {c d : RegClass}

theorem mergeClasses_isLeafClass (hc : c.isLeafClass) (hd : d.isLeafClass) :
    (mergeClasses c d).isLeafClass := by
  revert hc hd
  cases c <;> cases d <;> decide

theorem mergeClasses_comm (hc : c.isLeafClass) (hd : d.isLeafClass) :
    mergeClasses c d = mergeClasses d c := by
  revert hc hd
  cases c <;> cases d <;> decide

theorem mergeClasses_assoc {e : RegClass} (hc : c.isLeafClass) (hd : d.isLeafClass)
    (he : e.isLeafClass) :
    mergeClasses (mergeClasses c d) e = mergeClasses c (mergeClasses d e) := by
  revert hc hd he
  cases c <;> cases d <;> cases e <;> decide

theorem noClass_mergeClasses (c : RegClass) : mergeClasses .noClass c = c := by
  cases c <;> rfl

/-- The merge of the classes of the leaves in eightbyte `q`. -/
def eightbyteClass (q : ℕ) : List (ℕ × Scalar) → RegClass
  | [] => .noClass
  | (off, s) :: xs =>
    if off / 8 = q then mergeClasses (scalarClass s (off % 8)) (eightbyteClass q xs)
    else eightbyteClass q xs

theorem scalarClass_isLeafClass (s : Scalar) (off : ℕ) :
    (scalarClass s off).isLeafClass := by
  have h : (scalarClass s off).isGpr ∨ (scalarClass s off).isSse :=
    scalarClass_argClasses s off
  rcases h with h | h <;> simp [RegClass.isLeafClass, h]

theorem eightbyteClass_isLeafClass (q : ℕ) (xs : List (ℕ × Scalar)) :
    (eightbyteClass q xs).isLeafClass := by
  induction xs with
  | nil => rfl
  | cons x xs ih =>
    rw [eightbyteClass]
    split_ifs
    · exact mergeClasses_isLeafClass (scalarClass_isLeafClass _ _) ih
    · exact ih

theorem eightbyteClass_append (q : ℕ) (xs ys : List (ℕ × Scalar)) :
    eightbyteClass q (xs ++ ys) = mergeClasses (eightbyteClass q xs) (eightbyteClass q ys) := by
  induction xs with
  | nil => exact (noClass_mergeClasses _).symm
  | cons x xs ih =>
    rw [cons_append, eightbyteClass, eightbyteClass]
    split_ifs
    · rw [ih, mergeClasses_assoc (scalarClass_isLeafClass _ _) (eightbyteClass_isLeafClass q xs)
        (eightbyteClass_isLeafClass q ys)]
    · exact ih

theorem eightbyteClass_of_forall_ne {q : ℕ} {xs : List (ℕ × Scalar)} (h : ∀ x ∈ xs, x.1 / 8 ≠ q) :
    eightbyteClass q xs = .noClass := by
  induction xs with
  | nil => rfl
  | cons x xs ih =>
    rw [eightbyteClass, if_neg (h x mem_cons_self)]
    exact ih fun y hy => h y (mem_cons_of_mem x hy)

theorem eightbyteClass_filter {q n : ℕ} (hq : q < n) (xs : List (ℕ × Scalar)) :
    eightbyteClass q (xs.filter fun x => x.1 / 8 < n) = eightbyteClass q xs := by
  induction xs with
  | nil => rfl
  | cons x xs ih =>
    by_cases hx : x.1 / 8 < n
    · rw [filter_cons_of_pos (by simpa using hx), eightbyteClass, eightbyteClass, ih]
    · rw [filter_cons_of_neg (by simpa using hx), eightbyteClass, if_neg (by omega), ih]

theorem ffiAlign_add_eight {a : ℕ} (ha : IsAlignment a) (k v : ℕ) :
    ffiAlign (8 * k + v) a = 8 * k + ffiAlign v a := by
  have h := ffiAlign_spec (8 * k + v) ha
  have h' := ffiAlign_spec v ha
  rcases ha with rfl | rfl | rfl | rfl <;> omega

namespace TypeTree

def words (t : TypeTree) : ℕ := (t.size + 7) / 8

mutual

/-- The leaves whose class reaches the result when the tree starts at `off`. -/
def counted : TypeTree → ℕ → List (ℕ × Scalar)
  | scalar s, off => [(off, s)]
  | aggregate ms, off =>
    (countedFrom ms off).filter fun x => x.1 / 8 < off / 8 + (aggregate ms).words

def countedFrom : List TypeTree → ℕ → List (ℕ × Scalar)
  | [], _ => []
  | t :: ts, off =>
    t.counted (ffiAlign off t.alignment) ++ countedFrom ts (ffiAlign off t.alignment + t.size)

end

theorem words_scalar (s : Scalar) : (scalar s).words = 1 := by cases s <;> rfl

variable {t : TypeTree}

theorem words_pos (ht : t.Filled) : 0 < t.words := by
  have := size_pos ht
  unfold words
  omega

variable {off : ℕ}

theorem counted_ge (ht : t.Filled) {x : ℕ × Scalar}
    (hx : x ∈ t.counted off) : off ≤ x.1 := by
  induction t using induct generalizing off with
  | scalar s =>
    obtain rfl := mem_singleton.mp hx
    exact le_rfl
  | aggregate ms ih =>
    have hms := allFilled_iff.mp ht.2
    have hx' : x ∈ countedFrom ms off := (mem_filter.mp hx).1
    clear hx ht
    induction ms generalizing off with
    | nil => cases hx'
    | cons m ms ihl =>
      have hm := hms m mem_cons_self
      have hle := (ffiAlign_spec off (alignment_isAlignment hm)).1
      rcases mem_append.mp hx' with hx' | hx'
      · have := ih m mem_cons_self hm hx'
        omega
      · have := ihl (fun y hy => ih y (mem_cons_of_mem m hy))
          (forall_mem_cons.mp hms).2 hx'
        omega

/-- The leaves that count lie in the eightbytes that are returned. -/
theorem counted_range (ht : t.Filled) {x : ℕ × Scalar}
    (hx : x ∈ t.counted off) : off / 8 ≤ x.1 / 8 ∧ x.1 / 8 < off / 8 + t.words := by
  refine ⟨Nat.div_le_div_right (counted_ge ht hx), ?_⟩
  cases t with
  | scalar s =>
    obtain rfl := mem_singleton.mp hx
    rw [words_scalar]
    exact Nat.lt_succ_self _
  | aggregate ms => simpa using (mem_filter.mp hx).2

def ClassifiesCounted (t : TypeTree) : Prop :=
  ∀ stale path prior off, off % t.alignment = 0 →
    ∃ cs, classifyOver stale t.desc path (.ofArray prior) (off % 8) = some (t.words, .ofArray cs) ∧
      ∀ p < t.words, cs p = eightbyteClass (off / 8 + p) (t.counted off)

theorem classifiesCounted_scalar (s : Scalar) : ClassifiesCounted (scalar s) := by
  intro stale path prior off hoff
  have hfit : off % 8 + s.size ≤ 8 := by
    change off % s.size = 0 at hoff
    rcases s.size_isAlignment with h | h | h | h <;> rw [h] at hoff ⊢ <;> omega
  have hover : classifyOver stale (scalar s).desc path (.ofArray prior) (off % 8) =
      classifyArgument s.ffi (.ofArray prior) (off % 8) := by
    cases s <;> rfl
  refine ⟨Function.update prior 0 (scalarClass s (off % 8)), ?_, ?_⟩
  · rw [hover, classifyArgument_scalar s _ _ hfit, set_ofArray, words_scalar]
  · intro p hp
    rw [words_scalar] at hp
    obtain rfl : p = 0 := by omega
    rw [Function.update_self, counted, eightbyteClass, if_pos (by omega), eightbyteClass]
    exact (argClasses.merge_noClass (scalarClass_argClasses s _)).symm

/-- The member loop. The classes of the first `n` eightbytes are those of the leaves met so far. -/
theorem classifyMembersOver_descs {ms : List TypeTree} (hms : ∀ m ∈ ms, m.Filled)
    (ih : ∀ m ∈ ms, ClassifiesCounted m) (stale : List ℕ → ℕ → RegClass) (path : List ℕ) (n base : ℕ)
    (k r : ℕ) (sub f : ℕ → RegClass) (xs : List (ℕ × Scalar))
    (hf : ∀ p < n, f p = eightbyteClass (base + p) xs) :
    ∃ f', classifyMembersOver stale (descs ms) path k (.ofArray sub) (.ofArray f) r =
        some (true, .ofArray f') ∧
      ∀ p < n, f' p = eightbyteClass (base + p) (xs ++ countedFrom ms (8 * base + r)) := by
  induction ms generalizing k r sub f xs with
  | nil => exact ⟨f, rfl, by simpa [countedFrom] using hf⟩
  | cons m ms ihl =>
    have hm := hms m mem_cons_self
    have hal := ffiAlign_add_eight (alignment_isAlignment hm) base r
    set r' := ffiAlign r m.alignment with hr'
    have hmod : (8 * base + r') % m.alignment = 0 := by
      rw [← hal]
      exact (ffiAlign_spec _ (alignment_isAlignment hm)).2.2
    obtain ⟨g, hrun, hg⟩ := ih m mem_cons_self stale (k :: path) sub (8 * base + r') hmod
    rw [show (8 * base + r') % 8 = r' % 8 by omega] at hrun
    have hdiv : (8 * base + r') / 8 = base + r' / 8 := by omega
    rw [hdiv] at hg
    -- after the merge the leaves of this member are in
    have hstep : ∀ p < n,
        (if r' / 8 ≤ p ∧ p < r' / 8 + m.words then mergeClasses (g (p - r' / 8)) (f p) else f p) =
          eightbyteClass (base + p) (xs ++ m.counted (8 * base + r')) := by
      intro p hp
      rw [eightbyteClass_append, ← hf p hp]
      split_ifs with hin
      · rw [hg _ (by omega), show base + r' / 8 + (p - r' / 8) = base + p by omega, hf p hp]
        exact mergeClasses_comm (eightbyteClass_isLeafClass _ _) (eightbyteClass_isLeafClass _ _)
      · have hnone : eightbyteClass (base + p) (m.counted (8 * base + r')) = .noClass := by
          refine eightbyteClass_of_forall_ne fun x hx => ?_
          have := counted_range hm hx
          omega
        have hcomm := mergeClasses_comm (eightbyteClass_isLeafClass (base + p) xs)
          (show RegClass.noClass.isLeafClass from rfl)
        rw [hnone, hf p hp, hcomm, noClass_mergeClasses]
    obtain ⟨f', hrest, hf'⟩ := ihl (forall_mem_cons.mp hms).2
      (fun x hx => ih x (mem_cons_of_mem m hx)) (k + 1) (r' + m.size) g _ _ hstep
    refine ⟨f', ?_, ?_⟩
    · rw [descs, classifyMembersOver]
      simp only [desc_alignment, desc_size, ← hr', hrun, bind_some, (words_pos hm).ne', if_false,
        mergeFrom_ofArray]
      exact hrest
    · intro p hp
      rw [hf' p hp, append_assoc, countedFrom, hal, Nat.add_assoc]

theorem size_le_of_mem {ms : List TypeTree} (hms : ∀ m ∈ ms, m.Filled) {m : TypeTree}
    (hm : m ∈ ms) : m.size ≤ endOffset ms off := by
  induction ms generalizing off with
  | nil => cases hm
  | cons x xs ih =>
    have hxs : ∀ y ∈ xs, y.Filled := fun y hy => hms y (mem_cons_of_mem x hy)
    rw [endOffset]
    rcases mem_cons.mp hm with rfl | hm
    · have := endOffset_ge hxs (ffiAlign off m.alignment + m.size)
      omega
    · exact ih hxs hm

theorem classifiesCounted (ht : t.Filled) (hsize : t.size ≤ 16) :
    ClassifiesCounted t := by
  induction t using induct with
  | scalar s => exact classifiesCounted_scalar s
  | aggregate ms ih =>
    have hms := allFilled_iff.mp ht.2
    have hend := endOffset_le_size ht
    have hpos := words_pos ht
    have hih : ∀ m ∈ ms, ClassifiesCounted m := fun m hm =>
      ih m hm (hms m hm) (((size_le_of_mem hms hm).trans hend).trans hsize)
    intro stale path prior off hoff
    set n := (aggregate ms).words with hn
    have hn2 : n ≤ 2 := by
      rw [hn, words]
      omega
    obtain ⟨f, hrun, hf⟩ := classifyMembersOver_descs hms hih stale path n (off / 8) 0 (off % 8)
      (stale path) (fun i => if i < n then .noClass else prior i) [] fun p hp => if_pos hp
    rw [nil_append, show 8 * (off / 8) + off % 8 = off by omega] at hf
    have hleaf : ∀ p < n, (f p).isLeafClass := fun p hp => by
      rw [hf p hp]
      exact eightbyteClass_isLeafClass _ _
    have hclean : (ofArray f).cleanup (range n) = some (true, .ofArray f) := by
      refine cleanup_of_ne_memory (fun i hi => ?_) fun i hi => ⟨f i, rfl, ?_⟩
      · exact (mem_range.mp hi).trans_le hn2
      · intro h
        have := hleaf i (mem_range.mp hi)
        rw [h] at this
        cases this
    refine ⟨f, ?_, ?_⟩
    · rw [desc, classifyOver]
      have hw : ((aggregate ms).size + 8 - 1) / 8 = n := by
        rw [hn, words]
        omega
      simp only [hw, show ¬ (aggregate ms).size > 32 by omega, hpos.ne', if_false,
        clear_ofArray, hrun, bind_eq_bind, bind_some, Bool.not_true,
        Bool.false_eq_true, wide, hn2, if_true, pure, hclean]
    · intro p hp
      rw [hf p hp, counted, eightbyteClass_filter (by omega)]

/-- Classification of a struct gives for each eightbyte the merge of the classes of the leaves in it,
whatever the arrays held before. -/
def ClassifiesLeaves (t : TypeTree) (d : FfiType) : Prop :=
  ∀ stale path prior, ∃ cs, classifyOver stale d path (.ofArray prior) 0 = some (t.words, cs) ∧
    ∀ p < t.words, cs p = some (eightbyteClass p (t.leavesAt 0))

/-- For a struct of at most 16 bytes, the classes are those of the leaves exactly if the leaves that a
nested aggregate loses change no eightbyte. -/
theorem classifiesLeaves_iff (ms : List TypeTree) (d : FfiType)
    (h : SizeT.initializeType (aggregate ms).ffi = some d) (hsize : (aggregate ms).size ≤ 16) :
    ClassifiesLeaves (aggregate ms) d ↔ ∀ p < (aggregate ms).words,
      eightbyteClass p ((aggregate ms).counted 0) = eightbyteClass p ((aggregate ms).leavesAt 0) := by
  obtain ⟨ht, rfl⟩ := desc_of_initializeType h (by omega)
  have hcounted := classifiesCounted ht hsize
  constructor
  · intro hall p hp
    obtain ⟨cs, hrun, hcs⟩ := hcounted (fun _ _ => .noClass) [] (fun _ => .noClass) 0 (Nat.zero_mod _)
    obtain ⟨cs', hrun', hcs'⟩ := hall (fun _ _ => .noClass) [] fun _ => .noClass
    rw [Nat.zero_mod, hrun', Option.some.injEq, Prod.mk.injEq] at hrun
    have hp' := hcs' p hp
    rw [hrun.2, ofArray, Option.some.injEq, hcs p hp, Nat.zero_div, Nat.zero_add] at hp'
    exact hp'
  · intro hsame stale path prior
    obtain ⟨cs, hrun, hcs⟩ := hcounted stale path prior 0 (Nat.zero_mod _)
    refine ⟨.ofArray cs, hrun, fun p hp => ?_⟩
    rw [ofArray, hcs p hp, Nat.zero_div, Nat.zero_add, hsame p hp]

theorem classifiesLeaves_iff_pair :
    ClassifiesLeaves (aggregate [aggregate [scalar .float, scalar .sint32], scalar .double])
      (aggregate [aggregate [scalar .float, scalar .sint32], scalar .double]).desc :=
  (classifiesLeaves_iff _ _ rfl (by decide)).mpr fun _ _ => rfl

/-- In `struct { float x; struct { float a; int b; } s; }` the integer starts the second eightbyte. The
inner struct is classified as one eightbyte, and the second one is left without a class. -/
theorem not_classifiesLeaves_straddle :
    SizeT.initializeType
        (aggregate [scalar .float, aggregate [scalar .float, scalar .sint32]]).ffi =
      some (aggregate [scalar .float, aggregate [scalar .float, scalar .sint32]]).desc ∧
    (aggregate [scalar .float, aggregate [scalar .float, scalar .sint32]]).size = 12 ∧
    ¬ ClassifiesLeaves (aggregate [scalar .float, aggregate [scalar .float, scalar .sint32]])
      (aggregate [scalar .float, aggregate [scalar .float, scalar .sint32]]).desc := by
  refine ⟨rfl, rfl, fun h => ?_⟩
  obtain ⟨cs, hrun, hcs⟩ := h (fun _ _ => .noClass) [] fun _ => .noClass
  have h1 := hcs 1 (by decide)
  have hrun1 : (classifyOver (fun _ _ => .noClass)
      (aggregate [scalar .float, aggregate [scalar .float, scalar .sint32]]).desc []
      (.ofArray fun _ => .noClass) 0).bind (fun r => r.2 1) = some .noClass := rfl
  rw [hrun] at hrun1
  exact absurd (h1.symm.trans hrun1) (by decide)

end TypeTree

end Iqemu64
