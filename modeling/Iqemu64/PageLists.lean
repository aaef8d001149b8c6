import Mathlib.Data.List.Nodup
import Iqemu64.Runs
import Iqemu64.TbTables

/-!
# The page lists

The links of all pages together describe one list of tagged pointers for each page. Blocks in the hash table
are on the lists of their pages. A list may also have blocks that were invalidated through their other page.
-/

namespace Iqemu64
open HeapList List Function TbTables

def TbInfo.content (tb : TbInfo) : TbInfo := { tb with invalid := false }

namespace TbTables

structure Linked (s : TbTables) (L : BitVec 64 → List ℕ) : Prop where
  isList : ∀ p, IsList s.pageNext (s.firstTb p) (L p)
  node : ∀ {p a}, a ∈ L p → a / 2 < s.next ∧ (s.tb (a / 2)).pageAddr (a % 2) = some p
  live : ∀ {k n p}, k ∈ s.htable → n < 2 → (s.tb k).pageAddr n = some p → 2 * k + n ∈ L p
  allocated : ∀ {k}, k ∈ s.htable → k < s.next
  nodup : s.htable.Nodup
  distinct : ∀ {k}, k < s.next → (s.tb k).pageAddr1 ≠ some (s.tb k).pageAddr0

variable {s t : TbTables} {L : BitVec 64 → List ℕ} {k n : ℕ} {p : BitVec 64}

theorem Linked.page_unique (h : Linked s L) {q : BitVec 64} {a : ℕ} (hp : a ∈ L p) (hq : a ∈ L q) :
    p = q :=
  Option.some.inj ((h.node hp).2.symm.trans (h.node hq).2)

theorem Linked.length_lt (h : Linked s L) (p : BitVec 64) : (L p).length < s.bound := by
  have hle := (h.isList p).length_le (n := 2 * s.next) fun a ha => by
    have := (h.node ha).1
    omega
  unfold bound
  omega

/-- On the list of a page a block has one pointer at most. -/
theorem Linked.node_unique (h : Linked s L) {a b : ℕ} (ha : a ∈ L p) (hb : b ∈ L p)
    (hab : a / 2 = b / 2) : a = b := by
  obtain ⟨hk, hpa⟩ := h.node ha
  obtain ⟨-, hpb⟩ := h.node hb
  rw [← hab] at hpb
  have hdistinct := h.distinct hk
  unfold TbInfo.pageAddr at hpa hpb
  split at hpa
  · split at hpb
    · omega
    · exact absurd (hpb.trans hpa.symm) hdistinct
  · split at hpb
    · exact absurd (hpa.trans hpb.symm) hdistinct
    · omega

/-- What only concerns the links of some page lists and the hash table. -/
theorem Linked.of_same (h : Linked s L) (hnext : t.pageNext = s.pageNext)
    (hfirst : t.firstTb = s.firstTb) (halloc : t.next = s.next)
    (hpages : ∀ k, (t.tb k).pageAddr0 = (s.tb k).pageAddr0 ∧ (t.tb k).pageAddr1 = (s.tb k).pageAddr1)
    (htable : t.htable.Sublist s.htable) : Linked t L := by
  have haddr : ∀ k n, (t.tb k).pageAddr n = (s.tb k).pageAddr n := fun k n => by
    unfold TbInfo.pageAddr
    rw [(hpages k).1, (hpages k).2]
  constructor
  · intro p
    rw [hnext, hfirst]
    exact h.isList p
  · intro p a ha
    rw [halloc, haddr]
    exact h.node ha
  · intro k n p hk hn hp
    rw [haddr] at hp
    exact h.live (htable.subset hk) hn hp
  · intro k hk
    rw [halloc]
    exact h.allocated (htable.subset hk)
  · exact htable.nodup h.nodup
  · intro k hk
    rw [halloc] at hk
    rw [(hpages k).1, (hpages k).2]
    exact h.distinct hk

/-! ### Linking in and out -/

theorem Linked.tbPageAdd (h : Linked s L) (hostPageMask : BitVec 64) (hk : k < s.next) (hn : n < 2)
    (hp : (s.tb k).pageAddr n = some p) (hnew : ∀ q, 2 * k + n ∉ L q) :
    Linked (s.tbPageAdd hostPageMask k n p) (update L p ((2 * k + n) :: L p)) := by
  have hsub : ∀ q, L q ⊆ update L p ((2 * k + n) :: L p) q := by
    intro q a ha
    rw [update_apply]
    split
    · rename_i hq
      subst hq
      exact mem_cons_of_mem _ ha
    · exact ha
  constructor
  · intro q
    by_cases hq : q = p
    · subst hq
      simp only [TbTables.tbPageAdd, update_self]
      exact (h.isList q).cons (hnew q)
    · simp only [TbTables.tbPageAdd, update_of_ne hq]
      exact (h.isList q).congr fun a ha =>
        update_of_ne (ne_of_mem_of_not_mem ha (hnew q)) _ _
  · intro q a ha
    rw [update_apply] at ha
    split at ha
    · rename_i hq
      obtain rfl | ha := mem_cons.mp ha
      · rw [show (2 * k + n) / 2 = k by omega, show (2 * k + n) % 2 = n by omega, hq]
        exact ⟨hk, hp⟩
      · rw [hq]
        exact h.node ha
    · exact h.node ha
  · intro j m q hj hm hq
    exact hsub q (h.live hj hm hq)
  · exact h.allocated
  · exact h.nodup
  · exact h.distinct

def without (L : BitVec 64 → List ℕ) (k : ℕ) (p : BitVec 64) : List ℕ :=
  (L p).filter fun a => a / 2 ≠ k

structure Unlinks (s t : TbTables) (k : ℕ) : Prop where
  tb : t.tb = s.tb
  htable : t.htable = s.htable
  next : t.next = s.next
  flags : t.flags = s.flags
  pageNext : ∀ a, a / 2 = k → t.pageNext a = s.pageNext a

theorem Unlinks.trans {u : TbTables} (h : Unlinks s t k) (h' : Unlinks t u k) : Unlinks s u k :=
  ⟨h'.tb.trans h.tb, h'.htable.trans h.htable, h'.next.trans h.next, h'.flags.trans h.flags,
    fun a ha => (h'.pageNext a ha).trans (h.pageNext a ha)⟩

theorem Linked.tbPageRemove (h : Linked s L) (hk : k ∉ s.htable) (hmem : 2 * k + n ∈ L p) (hn : n < 2) :
    ∃ t, s.tbPageRemove p k = some t ∧ Linked t (update L p (without L k p)) ∧
      Unlinks s t k := by
  obtain ⟨front, back, hsplit⟩ := append_of_mem hmem
  have hlist := h.isList p
  have hlength := h.length_lt p
  have hnodup := hlist.nodup
  rw [hsplit] at hlist hlength hnodup
  have hother : ∀ x ∈ L p, x ≠ 2 * k + n → x / 2 ≠ k := fun x hx hne hxk =>
    hne (h.node_unique hx hmem (by omega))
  have hnotfront : ∀ x ∈ front, x ≠ 2 * k + n := fun x hx =>
    (nodup_append.mp hnodup).2.2 x hx _ mem_cons_self
  have hnotback : ∀ x ∈ back, x ≠ 2 * k + n := fun x hx =>
    ne_of_mem_of_not_mem hx (nodup_cons.mp (nodup_append.mp hnodup).2.1).1
  have hfront : ∀ x ∈ front, x / 2 ≠ k := fun x hx =>
    hother x (by rw [hsplit]; exact mem_append_left _ hx) (hnotfront x hx)
  have hback : ∀ x ∈ back, x / 2 ≠ k := fun x hx =>
    hother x (by rw [hsplit]; exact mem_append_right _ (mem_cons_of_mem _ hx))
      (hnotback x hx)
  have hwithout : without L k p = front ++ back := by
    rw [without, hsplit, filter_append, filter_cons_of_neg (by simp; omega),
      filter_eq_self.mpr fun x hx => decide_eq_true (hfront x hx),
      filter_eq_self.mpr fun x hx => decide_eq_true (hback x hx)]
  have hfuel : front.length < s.bound := by
    rw [length_append] at hlength
    omega
  obtain ⟨head', next', hunlink, hlist', hsame⟩ := unlink_spec hlist
    (fun x hx => decide_eq_false (hfront x hx)) (decide_eq_true (by omega : (2 * k + n) / 2 = k)) hfuel
  have hsub : ∀ q, update L p (front ++ back) q ⊆ L q := by
    intro q a ha
    rw [update_apply] at ha
    split at ha
    · rename_i hq
      rw [hq, hsplit]
      obtain ha | ha := mem_append.mp ha
      · exact mem_append_left _ ha
      · exact mem_append_right _ (mem_cons_of_mem _ ha)
    · exact ha
  refine ⟨{ s with firstTb := update s.firstTb p head', pageNext := next' },
    by rw [TbTables.tbPageRemove, hunlink]; rfl, ?_, rfl, rfl, rfl, rfl, ?_⟩
  · rw [hwithout]
    constructor
    · intro q
      by_cases hq : q = p
      · subst hq
        simp only [update_self]
        exact hlist'
      · simp only [update_of_ne hq]
        refine (h.isList q).congr fun a ha => hsame a fun hfa => hq ?_
        exact h.page_unique ha (by rw [hsplit]; exact mem_append_left _ hfa)
    · intro q a ha
      exact h.node (hsub q ha)
    · intro j m q hj hm hq
      have hjmem := h.live hj hm hq
      rw [update_apply]
      split
      · rename_i hqp
        rw [hqp, hsplit] at hjmem
        have hne : 2 * j + m ≠ 2 * k + n := fun heq => hk (by
          rwa [show j = k by omega] at hj)
        rw [mem_append, mem_cons] at hjmem
        rw [mem_append]
        exact hjmem.imp_right fun hback => hback.resolve_left hne
      · exact hjmem
    · exact h.allocated
    · exact h.nodup
    · exact h.distinct
  · intro a ha
    exact hsame a fun hfa => hfront a hfa ha

/-- A block that is on the lists of its pages is taken off them. -/
theorem Linked.tbPagesRemove (h : Linked s L) (hk : k ∉ s.htable) (halloc : k < s.next)
    (hmem : ∀ n p, n < 2 → (s.tb k).pageAddr n = some p → 2 * k + n ∈ L p) :
    ∃ t, s.tbPagesRemove k = some t ∧ Linked t (without L k) ∧ Unlinks s t k := by
  have hpages : ∀ {p a}, a ∈ L p → a / 2 = k →
      p = (s.tb k).pageAddr0 ∨ (s.tb k).pageAddr1 = some p := by
    intro p a ha hak
    have hp := (h.node ha).2
    rw [hak, TbInfo.pageAddr] at hp
    split at hp
    · exact .inl (Option.some.inj hp).symm
    · exact .inr hp
  have hkeep : ∀ p, p ≠ (s.tb k).pageAddr0 → (s.tb k).pageAddr1 ≠ some p → without L k p = L p := by
    intro p h0 h1
    refine filter_eq_self.mpr fun a ha => decide_eq_true fun hak => ?_
    exact (hpages ha hak).elim h0 h1
  obtain ⟨t, ht, hlinked, hunlinks⟩ := h.tbPageRemove hk (hmem 0 _ (by decide) rfl) (by decide)
  rw [TbTables.tbPagesRemove, ht, Option.bind_some]
  cases h1 : (s.tb k).pageAddr1 with
  | none =>
    refine ⟨t, rfl, ?_, hunlinks⟩
    convert hlinked using 1
    funext q
    rw [update_apply]
    split
    · rename_i hq
      rw [hq]
    · rename_i hq
      exact hkeep q hq (by rw [h1]; simp)
  | some page =>
    have hne : page ≠ (s.tb k).pageAddr0 := fun heq => h.distinct halloc (by rw [h1, heq])
    have hmem1 : 2 * k + 1 ∈ update L (s.tb k).pageAddr0
        (without L k (s.tb k).pageAddr0) page := by
      rw [update_of_ne hne]
      exact hmem 1 page (by decide) h1
    obtain ⟨u, hu, hlinked', hunlinks'⟩ :=
      hlinked.tbPageRemove (by rw [hunlinks.htable]; exact hk) hmem1 (by decide)
    refine ⟨u, hu, ?_, hunlinks.trans hunlinks'⟩
    convert hlinked' using 1
    funext q
    rw [update_apply]
    split
    · rename_i hq
      rw [hq, without, without, update_of_ne hne]
    · rename_i hq
      rw [update_apply]
      split
      · rename_i hq0
        rw [hq0]
      · rename_i hq0
        exact hkeep q hq0 (by rw [h1]; exact fun heq => hq (Option.some.inj heq).symm)

/-! ### Invalidation -/

structure Invalidates (s t : TbTables) (k : ℕ) : Prop where
  htable : t.htable = s.htable.erase k
  next : t.next = s.next
  flags : t.flags = s.flags
  pageNext : ∀ a, a / 2 = k → t.pageNext a = s.pageNext a
  tb : ∀ j, (t.tb j).content = (s.tb j).content

def markInvalid (s : TbTables) (k : ℕ) : TbTables :=
  { s with tb := update s.tb k { s.tb k with invalid := true } }

theorem markInvalid_tb (s : TbTables) (k j : ℕ) :
    ((s.markInvalid k).tb j).content = (s.tb j).content := by
  simp only [markInvalid, update_apply]
  split
  · rename_i hj
    rw [hj]
    rfl
  · rfl

theorem Linked.markInvalid (h : Linked s L) (k : ℕ) : Linked (s.markInvalid k) L := by
  refine h.of_same rfl rfl rfl (fun j => ?_) (List.Sublist.refl _)
  have hj := markInvalid_tb s k j
  rw [TbInfo.content, TbInfo.content, TbInfo.mk.injEq] at hj
  exact ⟨hj.2.2.2.1, hj.2.2.2.2.1⟩

theorem Linked.doTbPhysInvalidate (h : Linked s L) (k : ℕ) (rm : Bool) :
    ∃ t, s.doTbPhysInvalidate k rm = some t ∧ Invalidates s t k ∧
      Linked t (if rm ∧ k ∈ s.htable then without L k else L) ∧
      (rm = false → t.firstTb = s.firstTb ∧ t.pageNext = s.pageNext) := by
  have hmark := h.markInvalid k
  have htb := markInvalid_tb s k
  rw [TbTables.doTbPhysInvalidate]
  by_cases hk : k ∈ s.htable
  · have herased : Linked { s.markInvalid k with htable := s.htable.erase k } L :=
      hmark.of_same rfl rfl rfl (fun _ => ⟨rfl, rfl⟩) (erase_sublist)
    simp only [not_true, hk, if_false, and_true]
    cases rm with
    | false =>
      refine ⟨_, rfl, ⟨rfl, rfl, rfl, fun _ _ => rfl, htb⟩, ?_, fun _ => ⟨rfl, rfl⟩⟩
      exact herased
    | true =>
      obtain ⟨t, ht, hlinked, hunlinks⟩ := herased.tbPagesRemove (k := k)
        (fun hmem => absurd rfl (h.nodup.mem_erase_iff.mp hmem).1) (h.allocated hk)
        (fun n p hn hp => hmark.live hk hn hp)
      refine ⟨t, ht, ⟨hunlinks.htable, hunlinks.next, hunlinks.flags, hunlinks.pageNext, ?_⟩, ?_, ?_⟩
      · intro j
        rw [hunlinks.tb]
        exact htb j
      · exact hlinked
      · exact fun hrm => (nomatch hrm)
  · simp only [hk, not_false_eq_true, if_true, and_false, if_false]
    refine ⟨_, rfl, ⟨?_, rfl, rfl, fun _ _ => rfl, htb⟩, hmark, fun _ => ⟨rfl, rfl⟩⟩
    exact (erase_of_not_mem hk).symm

/-- The loop over a whole list invalidates all blocks on it. -/
theorem Linked.invalidatePageLoop (h : Linked s L) {rest : List ℕ} {cur : Option ℕ} {fuel : ℕ}
    (hcur : IsList s.pageNext cur rest) (hfuel : rest.length ≤ fuel) :
    ∃ t, invalidatePageLoop fuel s cur = some t ∧ Linked t L ∧
      t.htable = s.htable.filter (fun k => k ∉ rest.map (· / 2)) ∧ t.next = s.next ∧
      t.flags = s.flags ∧ t.firstTb = s.firstTb ∧
      ∀ j, (t.tb j).content = (s.tb j).content := by
  induction rest generalizing s cur fuel with
  | nil =>
    obtain rfl : cur = none := hcur
    refine ⟨s, by simp only [invalidatePageLoop], h, ?_, rfl, rfl, rfl, fun _ => rfl⟩
    simp
  | cons a rest ih =>
    obtain ⟨rfl, hrest⟩ := hcur
    obtain ⟨fuel, rfl⟩ : ∃ m, fuel = m + 1 := ⟨fuel - 1, by simp at hfuel; omega⟩
    obtain ⟨t, ht, hinv, hlinked, hsame⟩ := h.doTbPhysInvalidate (a / 2) false
    obtain ⟨hfirst, hnext⟩ := hsame rfl
    simp only [Bool.false_eq_true, false_and, if_false] at hlinked
    rw [← hnext] at hrest
    obtain ⟨u, hu, hlinked', htable, hnext', hflags, hfirst', htb⟩ :=
      ih hlinked hrest (by simp at hfuel; omega)
    refine ⟨u, ?_, hlinked', ?_, hnext'.trans hinv.next, hflags.trans hinv.flags,
      hfirst'.trans hfirst, fun j => (htb j).trans (hinv.tb j)⟩
    · rw [invalidatePageLoop, ht, Option.bind_some]
      exact hu
    · rw [htable, hinv.htable, h.nodup.erase_eq_filter, filter_filter]
      refine filter_congr fun k _ => ?_
      by_cases hka : k = a / 2
      · simp [hka]
      · simp [hka]

/-- `tb_invalidate_phys_page` takes all blocks on the page out of the hash table. -/
theorem Linked.tbInvalidatePhysPage (h : Linked s L) (addr : BitVec 64) :
    ∃ t, s.tbInvalidatePhysPage addr = some t ∧ Linked t (update L (pageOf addr) []) ∧
      t.htable = s.htable.filter (fun k => k ∉ (L (pageOf addr)).map (· / 2)) ∧ t.next = s.next ∧
      t.flags = s.flags ∧
      ∀ j, (t.tb j).content = (s.tb j).content := by
  obtain ⟨t, ht, hlinked, htable, hnext, hflags, hfirst, htb⟩ :=
    h.invalidatePageLoop (h.isList (pageOf addr)) (h.length_lt (pageOf addr)).le
  refine ⟨{ t with firstTb := update t.firstTb (pageOf addr) none }, ?_, ?_, htable, hnext,
    hflags, htb⟩
  · rw [TbTables.tbInvalidatePhysPage, ht]
    rfl
  · constructor
    · intro p
      by_cases hp : p = pageOf addr
      · subst hp
        simp only [update_self]
        rfl
      · simp only [update_of_ne hp]
        exact hlinked.isList p
    · intro p a ha
      rw [update_apply] at ha
      split at ha
      · cases ha
      · exact hlinked.node ha
    · intro k n p hk hn hp
      have hmem := hlinked.live hk hn hp
      rw [update_apply]
      split
      · rename_i hpa
        -- a block on this page is not in the hash table any more
        rw [hpa] at hmem
        have hgone := (mem_filter.mp (htable ▸ hk)).2
        rw [decide_eq_true_iff] at hgone
        exact absurd (mem_map.mpr ⟨_, hmem, by omega⟩) hgone
      · exact hmem
    · exact hlinked.allocated
    · exact hlinked.nodup
    · exact hlinked.distinct

theorem tbRange_congr {a b : TbInfo} (h : a.content = b.content) (n : ℕ) : tbRange a n = tbRange b n := by
  rw [show tbRange a n = tbRange a.content n from rfl, h]
  rfl

def Overlaps (start stop : BitVec 64) (tb : TbInfo) (n : ℕ) : Prop :=
  ¬ ((tbRange tb n).2 ≤ start ∨ stop ≤ (tbRange tb n).1)

/-- The loop of a range. Blocks behind the present one stay on the list, others may be taken off. The
blocks outside of the range stay in the hash table. -/
theorem Linked.invalidateRangeLoop (h : Linked s L) (start stop : BitVec 64) (front : List ℕ)
    {rest : List ℕ} {cur : Option ℕ} {fuel : ℕ} (hlist : L p = front ++ rest) (hcur : IsList s.pageNext cur rest)
    (hfuel : rest.length ≤ fuel) :
    ∃ t L', invalidateRangeLoop start stop fuel s cur = some t ∧ Linked t L' ∧
      ∀ k, k ∈ t.htable ↔
        k ∈ s.htable ∧ ∀ a ∈ rest, a / 2 = k → ¬ Overlaps start stop (s.tb k) (a % 2) := by
  induction rest generalizing s L front cur fuel with
  | nil =>
    obtain rfl : cur = none := hcur
    exact ⟨s, L, by simp only [invalidateRangeLoop], h, fun k => by simp⟩
  | cons a rest ih =>
    obtain ⟨rfl, hrest⟩ := hcur
    obtain ⟨fuel, rfl⟩ : ∃ m, fuel = m + 1 := ⟨fuel - 1, by simp at hfuel; omega⟩
    have hle : rest.length ≤ fuel := by simp at hfuel; omega
    have hmove : front ++ a :: rest = (front ++ [a]) ++ rest := by simp
    rw [invalidateRangeLoop]
    simp only
    split
    · rename_i hoverlaps
      obtain ⟨t, ht, hinv, hlinked, -⟩ := h.doTbPhysInvalidate (a / 2) true
      rw [ht, Option.bind_some]
      have hnext : t.pageNext a = s.pageNext a := hinv.pageNext a rfl
      -- the lists of the new state agree with the rest that is still to be visited
      have hrest' : ∃ front', (if true ∧ a / 2 ∈ s.htable then without L (a / 2) else L) p =
          front' ++ rest := by
        split
        · have hnodup := (h.isList p).nodup
          rw [hlist] at hnodup
          have hkeep : ∀ x ∈ rest, x / 2 ≠ a / 2 := by
            intro x hx hxa
            have hxmem : x ∈ L p := by
              rw [hlist]
              exact mem_append_right _ (mem_cons_of_mem _ hx)
            have hamem : a ∈ L p := by
              rw [hlist]
              exact mem_append_right _ mem_cons_self
            obtain rfl := h.node_unique hxmem hamem hxa
            exact (nodup_cons.mp (nodup_append.mp hnodup).2.1).1 hx
          refine ⟨front.filter fun x => x / 2 ≠ a / 2, ?_⟩
          rw [without, hlist, filter_append, filter_cons_of_neg (by simp),
            filter_eq_self.mpr fun x hx => decide_eq_true (hkeep x hx)]
        · exact ⟨front ++ [a], by rw [hlist, hmove]⟩
      obtain ⟨front', hfront'⟩ := hrest'
      have hwhole : IsList t.pageNext (t.firstTb p) (front' ++ rest) := by
        rw [← hfront']
        exact hlinked.isList p
      obtain ⟨q, hq⟩ := hwhole.tail
      have hcur' : IsList t.pageNext (t.pageNext a) rest := by
        rw [hnext, hrest.head?, ← hq.head?]
        exact hq
      obtain ⟨u, L', hu, hlinked', hkept⟩ := ih hlinked front' hfront' hcur' hle
      refine ⟨u, L', hu, hlinked', fun k => ?_⟩
      have hself : (a / 2 = k → ¬ Overlaps start stop (s.tb k) (a % 2)) ↔ k ≠ a / 2 := by
        refine ⟨fun hk hka => hk hka.symm (hka ▸ hoverlaps), fun hne hak => absurd hak.symm hne⟩
      have hsame : ∀ n, Overlaps start stop (t.tb k) n ↔ Overlaps start stop (s.tb k) n := by
        intro n
        rw [Overlaps, tbRange_congr (hinv.tb k), Overlaps]
      rw [hkept, hinv.htable, h.nodup.mem_erase_iff, forall_mem_cons, hself]
      simp only [hsame]
      exact ⟨fun ⟨⟨hne, hk⟩, hall⟩ => ⟨hk, hne, hall⟩, fun ⟨hk, hne, hall⟩ => ⟨⟨hne, hk⟩, hall⟩⟩
    · rename_i houtside
      obtain ⟨u, L', hu, hlinked', hkept⟩ := ih h (front ++ [a]) (hlist.trans hmove) hrest hle
      refine ⟨u, L', hu, hlinked', fun k => ?_⟩
      rw [hkept, forall_mem_cons]
      refine and_congr_right fun _ => ⟨fun hall => ⟨?_, hall⟩, And.right⟩
      rintro rfl
      exact houtside

/-! ### New blocks -/

theorem Linked.alloc (h : Linked s L) (info : TbInfo) (hinfo : info.pageAddr1 ≠ some info.pageAddr0) :
    Linked { s with tb := update s.tb s.next info, next := s.next + 1 } L := by
  have hold : ∀ k, k < s.next → update s.tb s.next info k = s.tb k := fun k hk =>
    update_of_ne (by omega) _ _
  constructor
  · exact h.isList
  · intro p a ha
    obtain ⟨halloc, hpage⟩ := h.node ha
    refine ⟨Nat.lt_succ_of_lt halloc, ?_⟩
    simp only [hold _ halloc]
    exact hpage
  · intro k n p hk hn hp
    simp only [hold k (h.allocated hk)] at hp
    exact h.live hk hn hp
  · intro k hk
    exact Nat.lt_succ_of_lt (h.allocated hk)
  · exact h.nodup
  · intro k hk
    obtain hlt | rfl := Nat.lt_succ_iff_lt_or_eq.mp hk
    · simp only [hold k hlt]
      exact h.distinct hlt
    · simp only [update_self]
      exact hinfo

theorem secondPage_ne (pc : BitVec 64) (size : BitVec 16) : secondPage pc size ≠ some (pageOf pc) := by
  unfold secondPage
  simp only
  split
  · rename_i hne
    exact fun h => hne (Option.some.inj h).symm
  · exact fun h => (nomatch h)

def linkPages (hostPageMask : BitVec 64) (s : TbTables) (k : ℕ) : TbTables :=
  let s := s.tbPageAdd hostPageMask k 0 (s.tb k).pageAddr0
  match (s.tb k).pageAddr1 with
  | none => s
  | some page => s.tbPageAdd hostPageMask k 1 page

theorem linkPages_same (hostPageMask : BitVec 64) (s : TbTables) (k : ℕ) :
    (s.linkPages hostPageMask k).tb = s.tb ∧ (s.linkPages hostPageMask k).htable = s.htable ∧
      (s.linkPages hostPageMask k).next = s.next := by
  unfold linkPages
  simp only
  split
  · exact ⟨rfl, rfl, rfl⟩
  · exact ⟨rfl, rfl, rfl⟩

theorem tbLinkPage_eq (hostPageMask : BitVec 64) (s : TbTables) (k : ℕ) :
    s.tbLinkPage hostPageMask k =
      let u := s.linkPages hostPageMask k
      match u.htable.find? fun j => tbCmp (u.tb j) (u.tb k) with
      | none => some (k, { u with htable := k :: u.htable })
      | some existing => (u.tbPagesRemove k).map fun t => (existing, t) := rfl

theorem Linked.linkPages (h : Linked s L) (hostPageMask : BitVec 64) (hk : k < s.next)
    (hnew : ∀ q, ∀ a ∈ L q, a / 2 ≠ k) :
    ∃ L', Linked (s.linkPages hostPageMask k) L' ∧
      ∀ n p, n < 2 → (s.tb k).pageAddr n = some p → 2 * k + n ∈ L' p := by
  have hadd := h.tbPageAdd (n := 0) hostPageMask hk (by decide) rfl
    fun q hq => hnew q _ hq (by omega)
  rw [TbTables.linkPages]
  cases h1 : (s.tb k).pageAddr1 with
  | none =>
    refine ⟨_, by simpa only [TbTables.tbPageAdd, h1] using hadd, fun n p hn hp => ?_⟩
    unfold TbInfo.pageAddr at hp
    split at hp
    · rename_i hn0
      cases hp
      rw [update_self, hn0]
      exact mem_cons_self
    · rw [h1] at hp
      cases hp
  | some page =>
    have hne : page ≠ (s.tb k).pageAddr0 := fun heq => h.distinct hk (by rw [h1, heq])
    have hadd' := hadd.tbPageAdd (n := 1) hostPageMask hk (by decide) h1 fun q hq => by
      rw [update_apply] at hq
      split at hq
      · obtain heq | hq := mem_cons.mp hq
        · omega
        · exact hnew _ _ hq (by omega)
      · exact hnew q _ hq (by omega)
    refine ⟨_, by simpa only [TbTables.tbPageAdd, h1] using hadd', fun n p hn hp => ?_⟩
    unfold TbInfo.pageAddr at hp
    split at hp
    · rename_i hn0
      cases hp
      rw [update_of_ne (Ne.symm hne), update_self, hn0]
      exact mem_cons_self
    · rename_i hn0
      rw [h1] at hp
      cases hp
      rw [update_self, show n = 1 by omega]
      exact mem_cons_self

/-- A block that is on the lists of its pages goes into the hash table. -/
theorem Linked.insert (h : Linked s L) (hk : k < s.next) (hnew : k ∉ s.htable)
    (hmem : ∀ n p, n < 2 → (s.tb k).pageAddr n = some p → 2 * k + n ∈ L p) :
    Linked { s with htable := k :: s.htable } L := by
  constructor
  · exact h.isList
  · exact h.node
  · intro j n p hj hn hp
    obtain rfl | hj := mem_cons.mp hj
    · exact hmem n p hn hp
    · exact h.live hj hn hp
  · intro j hj
    obtain rfl | hj := mem_cons.mp hj
    · exact hk
    · exact h.allocated hj
  · exact nodup_cons.mpr ⟨hnew, h.nodup⟩
  · exact h.distinct

/-- The memory of a block that is on no list is given back. -/
theorem Linked.giveBack (h : Linked s L) (hk : s.next = k + 1) (hlists : ∀ q, ∀ a ∈ L q, a / 2 ≠ k)
    (htable : k ∉ s.htable) : Linked { s with next := k } L := by
  constructor
  · exact h.isList
  · intro p a ha
    obtain ⟨halloc, hpage⟩ := h.node ha
    have hne := hlists p a ha
    exact ⟨show a / 2 < k by omega, hpage⟩
  · exact h.live
  · intro j hj
    have halloc := h.allocated hj
    have hne : j ≠ k := ne_of_mem_of_not_mem hj htable
    show j < k
    omega
  · exact h.nodup
  · intro j hj
    exact h.distinct (hk ▸ Nat.lt_succ_of_lt hj)

/-- What a new block does to the tables: it is in the hash table, or a block was there that compares equal
to it. -/
theorem Linked.addBlock (h : Linked s L) (hostPageMask : BitVec 64) {pc : BitVec 64} (hpc : pc ≠ -1)
    (size : BitVec 16) (tcPtr : BitVec 64) :
    ∃ r t L', s.addBlock hostPageMask pc size tcPtr = some (r, t) ∧ Linked t L' ∧
      let info : TbInfo := ⟨pc, size, tcPtr, pageOf pc, secondPage pc size, false⟩
      (r = s.next ∧ t.htable = s.next :: s.htable ∧ t.tb = update s.tb s.next info ∧
          ∀ j ∈ s.htable, tbCmp (s.tb j) info = false) ∨
        (r ∈ s.htable ∧ t.htable = s.htable ∧ tbCmp (s.tb r) info ∧
          ∀ j ∈ s.htable, t.tb j = s.tb j) := by
  let info : TbInfo := ⟨pc, size, tcPtr, pageOf pc, secondPage pc size, false⟩
  let s₁ : TbTables := { s with tb := update s.tb s.next info, next := s.next + 1 }
  have hold : ∀ j ∈ s.htable, s₁.tb j = s.tb j := fun j hj =>
    update_of_ne (h.allocated hj).ne _ _
  have hown : s₁.tb s.next = info := update_self _ _ _
  have hnotin : s.next ∉ s.htable := fun hmem => lt_irrefl _ (h.allocated hmem)
  have hfresh : ∀ q, ∀ a ∈ L q, a / 2 ≠ s.next := fun q a ha => (h.node ha).1.ne
  have hlinked₁ : Linked s₁ L := h.alloc info (secondPage_ne pc size)
  obtain ⟨L₂, hlinked₂, hmem₂⟩ := hlinked₁.linkPages hostPageMask (Nat.lt_succ_self _) hfresh
  obtain ⟨htb₂, htable₂, hnext₂⟩ := linkPages_same hostPageMask s₁ s.next
  have hlink := tbLinkPage_eq hostPageMask s₁ s.next
  simp only [htb₂, htable₂, hown] at hlink
  rw [show s₁.htable = s.htable from rfl] at hlink
  have hadd : s.addBlock hostPageMask pc size tcPtr = (s₁.tbLinkPage hostPageMask s.next).map
      fun p => (p.1, if p.1 = s.next then p.2 else { p.2 with next := s.next }) := by
    rw [TbTables.addBlock, if_neg hpc]
  cases hfind : s.htable.find? fun j => tbCmp (s₁.tb j) info with
  | none =>
    rw [hfind] at hlink
    refine ⟨s.next, { s₁.linkPages hostPageMask s.next with htable := s.next :: s.htable }, L₂, ?_, ?_, ?_⟩
    · rw [hadd, hlink]
      simp only [Option.map_some, if_true, htb₂]
    · have hinsert := hlinked₂.insert (k := s.next) (by rw [hnext₂]; exact Nat.lt_succ_self _)
        (by rw [htable₂]; exact hnotin) (by rw [htb₂]; exact hmem₂)
      rw [htable₂] at hinsert
      exact hinsert
    · refine .inl ⟨rfl, rfl, htb₂, fun j hj => ?_⟩
      have hj' := find?_eq_none.mp hfind j hj
      rw [hold j hj, Bool.not_eq_true] at hj'
      exact hj'
  | some existing =>
    rw [hfind] at hlink
    have hexists : existing ∈ s.htable := mem_of_find?_eq_some hfind
    have hcmp := find?_some hfind
    simp only [hold existing hexists] at hcmp
    obtain ⟨t, ht, hlinked, hunlinks⟩ := hlinked₂.tbPagesRemove (k := s.next)
      (by rw [htable₂]; exact hnotin) (by rw [hnext₂]; exact Nat.lt_succ_self _)
      (by rw [htb₂]; exact hmem₂)
    refine ⟨existing, { t with next := s.next }, without L₂ s.next, ?_, ?_, .inr ⟨hexists, ?_, hcmp, ?_⟩⟩
    · rw [hadd, hlink, ht]
      simp only [Option.map_some, if_neg (ne_of_mem_of_not_mem hexists hnotin)]
    · refine hlinked.giveBack (hunlinks.next.trans hnext₂) (fun q a ha => ?_) ?_
      · exact of_decide_eq_true (mem_filter.mp ha).2
      · rw [hunlinks.htable, htable₂]
        exact hnotin
    · exact hunlinks.htable.trans htable₂
    · intro j hj
      rw [show ({ t with next := s.next } : TbTables).tb = t.tb from rfl, hunlinks.tb, htb₂]
      exact hold j hj

theorem Linked.addBlock_oneShot (h : Linked s L) (hostPageMask : BitVec 64) (size : BitVec 16)
    (tcPtr : BitVec 64) :
    ∃ t, s.addBlock hostPageMask (-1) size tcPtr = some (s.next, t) ∧ Linked t L ∧
      t.htable = s.htable ∧ ∀ j ∈ s.htable, t.tb j = s.tb j := by
  rw [TbTables.addBlock, if_pos rfl]
  refine ⟨_, rfl, h.alloc ⟨-1, size, tcPtr, -1, none, false⟩ (fun heq => (nomatch heq)), rfl, ?_⟩
  exact fun j hj => update_of_ne (h.allocated hj).ne _ _

/-! ### Runs -/

end TbTables

inductive TbEvent where
  | addBlock (pc : BitVec 64) (size : BitVec 16) (tcPtr : BitVec 64)
  | physInvalidate (k : ℕ) (whole : Bool)
  | invalidatePhysPage (addr : BitVec 64)
  | invalidatePhysPageRange (start stop : BitVec 64)
  | flush

namespace TbTables

def step (hostPageMask : BitVec 64) (s : TbTables) : TbEvent → Option TbTables
  | .addBlock pc size tcPtr => (s.addBlock hostPageMask pc size tcPtr).map Prod.snd
  | .physInvalidate k whole => s.doTbPhysInvalidate k whole
  | .invalidatePhysPage addr => s.tbInvalidatePhysPage addr
  | .invalidatePhysPageRange start stop => s.tbInvalidatePhysPageRange start stop
  | .flush => some s.tbFlush

theorem Linked.tbFlush (s : TbTables) : Linked s.tbFlush fun _ => [] := by
  constructor
  · exact fun p => rfl
  · exact fun ha => (nomatch ha)
  · exact fun hk => (nomatch hk)
  · exact fun hk => (nomatch hk)
  · exact nodup_nil
  · exact fun hk => absurd hk (Nat.not_lt_zero _)

theorem Linked.empty (flags : BitVec 64 → BitVec 32) : Linked (.empty flags) fun _ => [] := by
  constructor
  · exact fun p => rfl
  · exact fun ha => (nomatch ha)
  · exact fun hk => (nomatch hk)
  · exact fun hk => (nomatch hk)
  · exact nodup_nil
  · exact fun hk => absurd hk (Nat.not_lt_zero _)

/-- No step gets stuck, and the lists stay as they should be. -/
theorem Linked.step (h : Linked s L) (hostPageMask : BitVec 64) (e : TbEvent) :
    ∃ t L', s.step hostPageMask e = some t ∧ Linked t L' := by
  cases e with
  | addBlock pc size tcPtr =>
    by_cases hpc : pc = -1
    · obtain ⟨t, ht, hlinked, -⟩ := h.addBlock_oneShot hostPageMask size tcPtr
      rw [TbTables.step, hpc, ht]
      exact ⟨t, L, rfl, hlinked⟩
    · obtain ⟨r, t, L', ht, hlinked, -⟩ := h.addBlock hostPageMask hpc size tcPtr
      rw [TbTables.step, ht]
      exact ⟨t, L', rfl, hlinked⟩
  | physInvalidate k whole =>
    obtain ⟨t, ht, -, hlinked, -⟩ := h.doTbPhysInvalidate k whole
    exact ⟨t, _, ht, hlinked⟩
  | invalidatePhysPage addr =>
    obtain ⟨t, ht, hlinked, -⟩ := h.tbInvalidatePhysPage addr
    exact ⟨t, _, ht, hlinked⟩
  | invalidatePhysPageRange start stop =>
    obtain ⟨t, L', ht, hlinked, -⟩ := h.invalidateRangeLoop start stop [] rfl (h.isList (pageOf start))
      (h.length_lt (pageOf start)).le
    exact ⟨t, L', ht, hlinked⟩
  | flush => exact ⟨_, _, rfl, Linked.tbFlush s⟩

/-- Every page list ends, and a block in the hash table is on the list of a page once, with the right tag,
if the page is one of its pages, and not at all otherwise. -/
def PagesCovered (s : TbTables) : Prop :=
  ∀ p, ∃ as, IsList s.pageNext (s.firstTb p) as ∧ as.Nodup ∧ ∀ k ∈ s.htable,
    as.filter (fun a => a / 2 = k) =
      if (s.tb k).pageAddr0 = p then [2 * k]
      else if (s.tb k).pageAddr1 = some p then [2 * k + 1] else []

theorem Linked.filter_eq (h : Linked s L) {a : ℕ} (ha : a ∈ L p) :
    (L p).filter (fun b => b / 2 = a / 2) = [a] := by
  have hnodup := (h.isList p).nodup.filter (fun b => decide (b / 2 = a / 2))
  refine perm_singleton.mp ((perm_ext_iff_of_nodup hnodup (nodup_singleton a)).mpr ?_)
  intro b
  rw [mem_filter, mem_singleton, decide_eq_true_iff]
  constructor
  · rintro ⟨hb, hba⟩
    exact h.node_unique hb ha hba
  · rintro rfl
    exact ⟨ha, rfl⟩

theorem Linked.pagesCovered (h : Linked s L) : s.PagesCovered := by
  intro p
  refine ⟨L p, h.isList p, (h.isList p).nodup, fun k hk => ?_⟩
  split
  · rename_i h0
    have hmem := h.live (n := 0) hk (by decide) (congrArg some h0)
    have hfilter := h.filter_eq hmem
    rw [show (2 * k + 0) / 2 = k by omega] at hfilter
    exact hfilter
  · rename_i h0
    split
    · rename_i h1
      have hmem := h.live (n := 1) hk (by decide) h1
      have hfilter := h.filter_eq hmem
      rw [show (2 * k + 1) / 2 = k by omega] at hfilter
      exact hfilter
    · rename_i h1
      rw [filter_eq_nil_iff]
      intro a ha hak
      have hpage := (h.node ha).2
      rw [of_decide_eq_true hak, TbInfo.pageAddr] at hpage
      split at hpage
      · exact h0 (Option.some.inj hpage)
      · exact h1 hpage

end TbTables

/-- In every reachable state the page lists cover the live blocks, and every operation ends without coming to
the branch that is not reached. -/
theorem pageLists_cover (hostPageMask : BitVec 64) (flags : BitVec 64 → BitVec 32) (es : List TbEvent)
    (s : TbTables)
    (hs : Runs.Reaches (fun s e t => s.step hostPageMask e = some t) (.empty flags) es s) :
    s.PagesCovered ∧ ∀ e, ∃ t, s.step hostPageMask e = some t := by
  have hlinked : ∃ L, s.Linked L := by
    refine hs.invariant (I := fun s => ∃ L, s.Linked L) (fun s e t ⟨L, hL⟩ ht => ?_)
      ⟨_, TbTables.Linked.empty flags⟩
    obtain ⟨t', L', ht', hL'⟩ := hL.step hostPageMask e
    obtain rfl := Option.some.inj (ht.symm.trans ht')
    exact ⟨L', hL'⟩
  obtain ⟨L, hL⟩ := hlinked
  refine ⟨hL.pagesCovered, fun e => ?_⟩
  obtain ⟨t, L', ht, -⟩ := hL.step hostPageMask e
  exact ⟨t, ht⟩

/-- A block on two pages is invalidated through the second, then one at the same address is added. -/
theorem pageLists_cover_twoPages :
    ∃ s, Runs.Reaches (fun s e t => step (~~~0xfff) s e = some t) (.empty fun _ => 0)
        [.addBlock 0x10000ffc 8 0x20000, .invalidatePhysPage 0x10001000,
          .addBlock 0x10000ffc 8 0x20100] s ∧
      s.PagesCovered ∧ ∀ e, ∃ t, s.step (~~~0xfff) e = some t := by
  obtain ⟨s, hs⟩ : ∃ s, Runs.Reaches (fun s e t => step (~~~0xfff) s e = some t)
      (.empty fun _ => 0) [.addBlock 0x10000ffc 8 0x20000, .invalidatePhysPage 0x10001000,
        .addBlock 0x10000ffc 8 0x20100] s :=
    ⟨_, .cons rfl (.cons rfl (.cons rfl (.nil _)))⟩
  exact ⟨s, hs, pageLists_cover _ _ _ s hs⟩

end Iqemu64
