import Iqemu64.Runs
import Iqemu64.SearchTree

/-!
# From host addresses to blocks

Blocks are kept in a search tree by the range of their host code. The comparison tells a lookup from an
insertion by a size of zero. Blocks for host return addresses are inserted with that size.
-/

namespace Iqemu64
open SearchTree List

/-- `struct tb_tc`: a range of host code. -/
structure TbTc where
  ptr : ℕ
  size : ℕ
deriving DecidableEq

def ptrCmpTbTc (ptr : ℕ) (s : TbTc) : Ordering :=
  if ptr ≥ s.ptr + s.size then .gt else if ptr < s.ptr then .lt else .eq

/-- `tb_tc_cmp`. `none` is a failed assertion. -/
def tbTcCmp (a b : TbTc) : Option Ordering :=
  if a.size ≠ 0 ∧ b.size ≠ 0 then
    if a.ptr > b.ptr then some .gt
    else if a.ptr < b.ptr then some .lt
    else if a.size = b.size then some .eq else none
  else if a.size = 0 then some (ptrCmpTbTc a.ptr b)
  else some (ptrCmpTbTc b.ptr a)

def tcgTbInsert (tree : Tree TbTc ℕ) (tc : TbTc) (tb : ℕ) : Option (Tree TbTc ℕ) :=
  tree.insert tbTcCmp tc tb

def tcgTbLookup (tree : Tree TbTc ℕ) (tcPtr : ℕ) : Option ℕ := tree.lookup tbTcCmp ⟨tcPtr, 0⟩

/-- The tree, the end of the code that was generated, and the blocks of guest code that were inserted. -/
structure TcgTree where
  tree : Tree TbTc ℕ
  codeGenPtr : ℕ
  guests : List (TbTc × ℕ)

inductive TcgEvent where
  | guest (gap size rest tb : ℕ) (hsize : 0 < size)
  | host (tc : TbTc) (tb : ℕ)
  | emit (size : ℕ)

namespace TcgTree

def Step (s : TcgTree) (e : TcgEvent) (t : TcgTree) : Prop :=
  match e with
  | .guest gap size rest tb _ => ∃ tree, tcgTbInsert s.tree ⟨s.codeGenPtr + gap, size⟩ tb = some tree ∧
    t.tree.toList = tree.toList ∧ t.codeGenPtr = s.codeGenPtr + gap + size + rest ∧
    t.guests = (⟨s.codeGenPtr + gap, size⟩, tb) :: s.guests
  | .host tc tb => ∃ tree, tcgTbInsert s.tree tc tb = some tree ∧
    t.tree.toList = tree.toList ∧ t.codeGenPtr = s.codeGenPtr ∧ t.guests = s.guests
  | .emit size => t.tree.toList = s.tree.toList ∧ t.codeGenPtr = s.codeGenPtr + size ∧ t.guests = s.guests

def Found (s : TcgTree) : Prop :=
  ∀ g ∈ s.guests, ∀ a, g.1.ptr ≤ a → a < g.1.ptr + g.1.size → tcgTbLookup s.tree a = some g.2

/-- The code of a block for a host address is a range that was generated before and that is not empty. It is
apart from all others in the tree, or the same as that of another block for a host address. -/
def HostFits (s : TcgTree) : TcgEvent → Prop
  | .host tc _ => 0 < tc.size ∧ tc.ptr + tc.size ≤ s.codeGenPtr ∧ ∀ e ∈ s.tree.toList,
    e.1.ptr + e.1.size ≤ tc.ptr ∨ tc.ptr + tc.size ≤ e.1.ptr ∨ e.1 = tc ∧ ∀ g ∈ s.guests, g.1 ≠ tc
  | _ => True

end TcgTree

/-! ### The comparison -/

def TbTc.Before (a b : TbTc) : Prop := a.ptr + a.size ≤ b.ptr

section Cmp
variable {a b : TbTc}

theorem tbTcCmp_gt (ha : 0 < a.size) (hb : 0 < b.size) (h : b.Before a) : tbTcCmp a b = some .gt := by
  have hlt : a.ptr > b.ptr := by
    unfold TbTc.Before at h
    omega
  rw [tbTcCmp, if_pos ⟨by omega, by omega⟩, if_pos hlt]

theorem tbTcCmp_lt (ha : 0 < a.size) (hb : 0 < b.size) (h : a.Before b) : tbTcCmp a b = some .lt := by
  have hlt : a.ptr < b.ptr := by
    unfold TbTc.Before at h
    omega
  rw [tbTcCmp, if_pos ⟨by omega, by omega⟩, if_neg (by omega), if_pos hlt]

theorem tbTcCmp_self (ha : 0 < a.size) : tbTcCmp a a = some .eq := by
  rw [tbTcCmp, if_pos ⟨by omega, by omega⟩, if_neg (by omega), if_neg (by omega), if_pos rfl]

theorem tbTcCmp_lookup (p : ℕ) : tbTcCmp ⟨p, 0⟩ b = some (ptrCmpTbTc p b) := by
  rw [tbTcCmp, if_neg (by simp), if_pos rfl]

end Cmp

/-! ### Runs -/

structure TcgTree.Ordered (s : TcgTree) : Prop where
  pairwise : s.tree.toList.Pairwise fun e f => e.1.Before f.1
  size_pos : ∀ e ∈ s.tree.toList, 0 < e.1.size
  bound : ∀ e ∈ s.tree.toList, e.1.ptr + e.1.size ≤ s.codeGenPtr
  guests : ∀ g ∈ s.guests, g ∈ s.tree.toList

/-- A range that is apart from all others has its place among them. -/
theorem exists_place {es : List (TbTc × ℕ)} {tc : TbTc} (hes : es.Pairwise fun e f => e.1.Before f.1)
    (hpos : ∀ e ∈ es, 0 < e.1.size) (hapart : ∀ e ∈ es, e.1.Before tc ∨ tc.Before e.1) :
    ∃ pre post, es = pre ++ post ∧ (∀ e ∈ pre, e.1.Before tc) ∧ ∀ e ∈ post, tc.Before e.1 := by
  induction es with
  | nil => exact ⟨[], [], rfl, by simp, by simp⟩
  | cons e es ih =>
    rw [pairwise_cons] at hes
    rw [forall_mem_cons] at hpos hapart
    obtain hbefore | hbehind := hapart.1
    · obtain ⟨pre, post, rfl, hpre, hpost⟩ := ih hes.2 hpos.2 hapart.2
      exact ⟨e :: pre, post, rfl, forall_mem_cons.mpr ⟨hbefore, hpre⟩, hpost⟩
    · refine ⟨[], e :: es, rfl, by simp, forall_mem_cons.mpr ⟨hbehind, fun f hf => ?_⟩⟩
      have hf' := hes.1 f hf
      unfold TbTc.Before at hbehind hf' ⊢
      omega

namespace TcgTree

variable {s t : TcgTree}

theorem Ordered.found (h : Ordered s) : s.Found := by
  intro g hg a hlo hhi
  obtain ⟨pre, post, hsplit⟩ := append_of_mem (h.guests g hg)
  have hpairwise := h.pairwise
  rw [hsplit, pairwise_append, pairwise_cons] at hpairwise
  obtain ⟨-, ⟨hpost, -⟩, hpre⟩ := hpairwise
  refine Tree.lookup_of_split hsplit (fun e he => ?_) ?_ fun e he => ?_
  · have hbefore := hpre e he g mem_cons_self
    unfold TbTc.Before at hbefore
    rw [tbTcCmp_lookup, ptrCmpTbTc, if_pos (by omega)]
  · rw [tbTcCmp_lookup, ptrCmpTbTc, if_neg (by omega), if_neg (by omega)]
  · have hbehind := hpost e he
    unfold TbTc.Before at hbehind
    rw [tbTcCmp_lookup, ptrCmpTbTc, if_neg (by omega), if_pos (by omega)]

theorem Ordered.insert (h : Ordered s) {tc : TbTc} (hsize : 0 < tc.size)
    (hapart : ∀ e ∈ s.tree.toList, e.1.Before tc ∨ tc.Before e.1) {tb : ℕ} {tree : Tree TbTc ℕ}
    (htree : tcgTbInsert s.tree tc tb = some tree) :
    tree.toList.Pairwise (fun e f => e.1.Before f.1) ∧
      ∀ e, e ∈ tree.toList ↔ e = (tc, tb) ∨ e ∈ s.tree.toList := by
  obtain ⟨pre, post, hsplit, hpre, hpost⟩ := exists_place h.pairwise h.size_pos hapart
  have hpos := h.size_pos
  have hpairwise := h.pairwise
  rw [hsplit] at hpos hpairwise
  obtain ⟨tree', htree', hlist⟩ := Tree.insert_of_split tb hsplit
    (fun e he => tbTcCmp_gt hsize (hpos e (mem_append_left _ he)) (hpre e he))
    (fun e he => tbTcCmp_lt hsize (hpos e (mem_append_right _ he)) (hpost e he))
  obtain rfl := Option.some.inj (htree.symm.trans htree')
  rw [hlist, hsplit]
  rw [pairwise_append] at hpairwise
  refine ⟨pairwise_append.mpr ⟨hpairwise.1, pairwise_cons.mpr ⟨hpost, hpairwise.2.1⟩, ?_⟩,
    fun e => ?_⟩
  · intro e he f hf
    obtain rfl | hf := mem_cons.mp hf
    · exact hpre e he
    · exact hpairwise.2.2 e he f hf
  · simp only [mem_append, mem_cons]
    constructor
    · rintro (he | rfl | he)
      · exact .inr (.inl he)
      · exact .inl rfl
      · exact .inr (.inr he)
    · rintro (rfl | he | he)
      · exact .inr (.inl rfl)
      · exact .inl he
      · exact .inr (.inr he)

/-- A range that is there already only gets another block. -/
theorem Ordered.replace (h : Ordered s) {tc : TbTc} {v tb : ℕ} (hmem : (tc, v) ∈ s.tree.toList)
    {tree : Tree TbTc ℕ} (htree : tcgTbInsert s.tree tc tb = some tree) :
    tree.toList.Pairwise (fun e f => e.1.Before f.1) ∧
      (∀ e ∈ tree.toList, ∃ f ∈ s.tree.toList, e.1 = f.1) ∧
      ∀ e ∈ s.tree.toList, e.1 ≠ tc → e ∈ tree.toList := by
  have hsize := h.size_pos _ hmem
  obtain ⟨pre, post, hsplit⟩ := append_of_mem hmem
  have hpos := h.size_pos
  have hpairwise := h.pairwise
  rw [hsplit] at hpos hpairwise
  rw [pairwise_append, pairwise_cons] at hpairwise
  obtain ⟨hpre, ⟨hpost, hrest⟩, hacross⟩ := hpairwise
  obtain ⟨tree', htree', hlist⟩ := Tree.insert_of_found tb hsplit
    (fun e he => tbTcCmp_gt hsize (hpos e (mem_append_left _ he))
      (hacross e he _ mem_cons_self))
    (tbTcCmp_self hsize)
    (fun e he => tbTcCmp_lt hsize
      (hpos e (mem_append_right _ (mem_cons_of_mem _ he))) (hpost e he))
  obtain rfl := Option.some.inj (htree.symm.trans htree')
  rw [hlist, hsplit]
  refine ⟨pairwise_append.mpr ⟨hpre, pairwise_cons.mpr ⟨hpost, hrest⟩, ?_⟩, ?_, ?_⟩
  · intro e he f hf
    obtain rfl | hf := mem_cons.mp hf
    · exact hacross e he (tc, v) mem_cons_self
    · exact hacross e he f (mem_cons_of_mem _ hf)
  · intro e he
    simp only [mem_append, mem_cons] at he ⊢
    obtain he | rfl | he := he
    · exact ⟨e, .inl he, rfl⟩
    · exact ⟨(tc, v), .inr (.inl rfl), rfl⟩
    · exact ⟨e, .inr (.inr he), rfl⟩
  · intro e he hne
    simp only [mem_append, mem_cons] at he ⊢
    obtain he | rfl | he := he
    · exact .inl he
    · exact absurd rfl hne
    · exact .inr (.inr he)

theorem Ordered.step {e : TcgEvent} (h : Ordered s) (hfits : s.HostFits e) (ht : Step s e t) :
    Ordered t := by
  cases e with
  | guest gap size rest tb hsize =>
    obtain ⟨tree, htree, hlist, hptr, hguests⟩ := ht
    -- new code is behind everything in the tree
    have hbehind : ∀ e ∈ s.tree.toList, e.1.Before ⟨s.codeGenPtr + gap, size⟩ := fun e he => by
      have := h.bound e he
      show e.1.ptr + e.1.size ≤ s.codeGenPtr + gap
      omega
    obtain ⟨hpairwise, hmem⟩ := h.insert hsize (fun e he => .inl (hbehind e he)) htree
    refine ⟨hlist ▸ hpairwise, fun e he => ?_, fun e he => ?_, fun g hg => ?_⟩
    · rw [hlist, hmem] at he
      obtain rfl | he := he
      · exact hsize
      · exact h.size_pos e he
    · rw [hlist, hmem] at he
      rw [hptr]
      obtain rfl | he := he
      · show s.codeGenPtr + gap + size ≤ _
        omega
      · have := h.bound e he
        omega
    · rw [hlist, hmem]
      rw [hguests] at hg
      obtain rfl | hg := mem_cons.mp hg
      · exact .inl rfl
      · exact .inr (h.guests g hg)
  | host tc tb =>
    obtain ⟨tree, htree, hlist, hptr, hguests⟩ := ht
    obtain ⟨hsize, hbound, hapart⟩ := hfits
    by_cases hshared : ∃ v, (tc, v) ∈ s.tree.toList
    · obtain ⟨v, hv⟩ := hshared
      obtain ⟨hpairwise, hkeys, hkept⟩ := h.replace hv htree
      have hfree : ∀ g ∈ s.guests, g.1 ≠ tc := by
        obtain hapart | hapart | hapart := hapart _ hv
        · exact absurd hapart (by show ¬ tc.ptr + tc.size ≤ tc.ptr; omega)
        · exact absurd hapart (by show ¬ tc.ptr + tc.size ≤ tc.ptr; omega)
        · exact hapart.2
      refine ⟨hlist ▸ hpairwise, fun e he => ?_, fun e he => ?_, fun g hg => ?_⟩
      · obtain ⟨f, hf, hef⟩ := hkeys e (hlist ▸ he)
        rw [hef]
        exact h.size_pos f hf
      · obtain ⟨f, hf, hef⟩ := hkeys e (hlist ▸ he)
        rw [hef, hptr]
        exact h.bound f hf
      · rw [hguests] at hg
        rw [hlist]
        exact hkept g (h.guests g hg) (hfree g hg)
    · obtain ⟨hpairwise, hmem⟩ := h.insert hsize (fun e he => by
        obtain hbefore | hbehind | ⟨heq, -⟩ := hapart e he
        · exact .inl hbefore
        · exact .inr hbehind
        · exact absurd ⟨e.2, heq ▸ he⟩ hshared) htree
      refine ⟨hlist ▸ hpairwise, fun e he => ?_, fun e he => ?_, fun g hg => ?_⟩
      · rw [hlist, hmem] at he
        obtain rfl | he := he
        · exact hsize
        · exact h.size_pos e he
      · rw [hlist, hmem] at he
        rw [hptr]
        obtain rfl | he := he
        · exact hbound
        · exact h.bound e he
      · rw [hguests] at hg
        rw [hlist, hmem]
        exact .inr (h.guests g hg)
  | emit size =>
    obtain ⟨hlist, hptr, hguests⟩ := ht
    refine ⟨hlist ▸ h.pairwise, hlist ▸ h.size_pos, fun e he => ?_, fun g hg => ?_⟩
    · have := h.bound e (hlist ▸ he)
      omega
    · rw [hlist]
      exact h.guests g (hguests ▸ hg)

end TcgTree

/-- In every run whose blocks for host addresses fit, host addresses in guest code lead to its block. -/
theorem tcgTbLookup_found (start : ℕ) (es : List TcgEvent)
    (hfits : Runs.Along TcgTree.Step TcgTree.HostFits ⟨.nil, start, []⟩ es) (s : TcgTree)
    (hs : Runs.Reaches TcgTree.Step ⟨.nil, start, []⟩ es s) : s.Found := by
  have hordered : s.Ordered := by
    refine Runs.Along.reaches_invariant (I := TcgTree.Ordered) (fun s e t h hP ht => h.step hP ht) hfits ?_ hs
    exact ⟨.nil, fun e he => (nomatch he), fun e he => (nomatch he), fun g hg => (nomatch hg)⟩
  exact hordered.found

/-- Two blocks that share a trampoline, and one of guest code. -/
theorem tcgTbLookup_found_shared :
    ∃ s, Runs.Reaches TcgTree.Step ⟨.nil, 0x1080, []⟩
        [.host ⟨0x1000, 0x40⟩ 0, .host ⟨0x1000, 0x40⟩ 1, .guest 0x100 0x30 8 2 (by decide)] s ∧
      s.guests.length = 1 ∧ s.Found := by
  obtain ⟨s, hs, hlength⟩ : ∃ s : TcgTree, Runs.Reaches TcgTree.Step ⟨.nil, 0x1080, []⟩
      [.host ⟨0x1000, 0x40⟩ 0, .host ⟨0x1000, 0x40⟩ 1, .guest 0x100 0x30 8 2 (by decide)] s ∧
      s.guests.length = 1 :=
    ⟨⟨_, _, _⟩, .cons (t := ⟨_, _, _⟩) ⟨_, rfl, rfl, rfl, rfl⟩
      (.cons (t := ⟨_, _, _⟩) ⟨_, rfl, rfl, rfl, rfl⟩
        (.cons (t := ⟨_, _, _⟩) ⟨_, rfl, rfl, rfl, rfl⟩ (.nil _))), rfl⟩
  refine ⟨s, hs, hlength, tcgTbLookup_found _ _ ?_ s hs⟩
  refine ⟨?_, fun t ht => ⟨?_, fun _ _ => ⟨trivial, ?_⟩⟩⟩
  · exact ⟨by decide, by decide, fun e he => (nomatch he)⟩
  · obtain ⟨tree, htree, hlist, hptr, hguests⟩ := ht
    cases htree
    refine ⟨by decide, by rw [hptr]; decide, fun e he => .inr (.inr ⟨?_, fun g hg => ?_⟩)⟩
    · rw [hlist] at he
      rw [mem_singleton.mp he]
    · rw [hguests] at hg
      cases hg
  · exact fun _ _ => trivial

/-- A block for a return address is inserted, then one of guest code whose code is behind it. The comparison
puts the second one to the left, and a lookup goes to the right. -/
theorem tcgTbLookup_found_returnAddress :
    ∃ s, Runs.Reaches TcgTree.Step ⟨.nil, 0x2000, []⟩
        [.host ⟨0x1000, 0⟩ 0, .guest 0x100 0x30 8 1 (by decide)] s ∧
      (⟨0x2100, 0x30⟩, 1) ∈ s.guests ∧ tcgTbLookup s.tree 0x2100 = none ∧ ¬ s.Found := by
  obtain ⟨s, hs, hmem, hnone⟩ : ∃ s : TcgTree, Runs.Reaches TcgTree.Step ⟨.nil, 0x2000, []⟩
      [.host ⟨0x1000, 0⟩ 0, .guest 0x100 0x30 8 1 (by decide)] s ∧
      (⟨0x2100, 0x30⟩, 1) ∈ s.guests ∧ tcgTbLookup s.tree 0x2100 = none :=
    ⟨⟨_, _, _⟩, .cons (t := ⟨_, _, _⟩) ⟨_, rfl, rfl, rfl, rfl⟩
      (.cons (t := ⟨_, _, _⟩) ⟨_, rfl, rfl, rfl, rfl⟩ (.nil _)), mem_cons_self, rfl⟩
  refine ⟨s, hs, hmem, hnone, fun hfound => ?_⟩
  have hfound := hfound _ hmem 0x2100 (by decide) (by decide)
  exact absurd (hnone.symm.trans hfound) (by simp)

end Iqemu64
