import Iqemu64.PageLists

/-!
# Finding a block again

A block is linked with the page that its code ends on, computed from its size. The lookup accepts a block on
one page, or on its own page and the next one. The size of a block for host code is never set.
-/

namespace Iqemu64
open List Option BitVec TbTables

namespace TbTables

/-! ### What invalidation leaves in the hash table -/

structure Shrinks (s t : TbTables) : Prop where
  htable : t.htable.Sublist s.htable
  marked : ∀ {k}, k ∈ s.htable → k ∈ t.htable ∨ (t.tb k).invalid = true
  invalid : ∀ {k}, (s.tb k).invalid = true → (t.tb k).invalid = true
  tb : ∀ k, (t.tb k).content = (s.tb k).content

variable {s t u : TbTables} {k : ℕ}

theorem Shrinks.refl (s : TbTables) : Shrinks s s :=
  ⟨List.Sublist.refl _, fun hk => .inl hk, fun h => h, fun _ => rfl⟩

theorem Shrinks.trans (h : Shrinks s t) (h' : Shrinks t u) : Shrinks s u := by
  refine ⟨h'.htable.trans h.htable, fun {k} hk => ?_, fun hk => h'.invalid (h.invalid hk),
    fun k => (h'.tb k).trans (h.tb k)⟩
  obtain hk | hk := h.marked hk
  · exact h'.marked hk
  · exact .inr (h'.invalid hk)

theorem tbPageRemove_same {page : BitVec 64} (h : s.tbPageRemove page k = some t) :
    t.tb = s.tb ∧ t.htable = s.htable := by
  obtain ⟨⟨head, next⟩, -, rfl⟩ := map_eq_some_iff.mp h
  exact ⟨rfl, rfl⟩

theorem tbPagesRemove_same (h : s.tbPagesRemove k = some t) : t.tb = s.tb ∧ t.htable = s.htable := by
  obtain ⟨u, hu, h⟩ := bind_eq_some_iff.mp h
  obtain ⟨htb, htable⟩ := tbPageRemove_same hu
  split at h
  · cases h
    exact ⟨htb, htable⟩
  · obtain ⟨htb', htable'⟩ := tbPageRemove_same h
    exact ⟨htb'.trans htb, htable'.trans htable⟩

theorem doTbPhysInvalidate_shrinks {rm : Bool} (h : s.doTbPhysInvalidate k rm = some t) :
    Shrinks s t := by
  have hmark : ((s.markInvalid k).tb k).invalid = true := by
    simp only [markInvalid, Function.update_self]
  have hmono : ∀ {j}, (s.tb j).invalid = true → ((s.markInvalid k).tb j).invalid = true := by
    intro j hj
    simp only [markInvalid, Function.update_apply]
    split
    · rfl
    · exact hj
  have hshrink : ∀ {t : TbTables}, t.tb = (s.markInvalid k).tb →
      t.htable = s.htable.erase k → Shrinks s t := by
    intro t htb htable
    refine ⟨htable ▸ erase_sublist, fun {j} hj => ?_, fun hj => htb ▸ hmono hj, fun j => ?_⟩
    · by_cases hjk : j = k
      · rw [hjk, htb]
        exact .inr hmark
      · rw [htable]
        exact .inl ((mem_erase_of_ne hjk).mpr hj)
    · rw [htb]
      exact markInvalid_tb s k j
  rw [doTbPhysInvalidate] at h
  simp only at h
  split at h
  · rename_i hk
    cases h
    exact hshrink rfl (erase_of_not_mem hk).symm
  · split at h
    · obtain ⟨htb, htable⟩ := tbPagesRemove_same h
      exact hshrink htb htable
    · cases h
      exact hshrink rfl rfl

theorem invalidatePageLoop_shrinks {fuel : ℕ} {cur : Option ℕ}
    (h : invalidatePageLoop fuel s cur = some t) : Shrinks s t := by
  induction fuel generalizing s cur with
  | zero =>
    cases cur with
    | none =>
      simp only [invalidatePageLoop] at h
      exact Option.some.inj h ▸ Shrinks.refl s
    | some a => cases h
  | succ fuel ih =>
    cases cur with
    | none =>
      simp only [invalidatePageLoop] at h
      exact Option.some.inj h ▸ Shrinks.refl s
    | some a =>
      obtain ⟨u, hu, h⟩ := bind_eq_some_iff.mp h
      exact (doTbPhysInvalidate_shrinks hu).trans (ih h)

theorem invalidateRangeLoop_shrinks {start stop : BitVec 64} {fuel : ℕ} {cur : Option ℕ}
    (h : invalidateRangeLoop start stop fuel s cur = some t) : Shrinks s t := by
  induction fuel generalizing s cur with
  | zero =>
    cases cur with
    | none =>
      simp only [invalidateRangeLoop] at h
      exact Option.some.inj h ▸ Shrinks.refl s
    | some a => cases h
  | succ fuel ih =>
    cases cur with
    | none =>
      simp only [invalidateRangeLoop] at h
      exact Option.some.inj h ▸ Shrinks.refl s
    | some a =>
      rw [invalidateRangeLoop] at h
      simp only at h
      split at h
      · obtain ⟨u, hu, h⟩ := bind_eq_some_iff.mp h
        exact (doTbPhysInvalidate_shrinks hu).trans (ih h)
      · exact ih h

theorem tbInvalidatePhysPage_shrinks {addr : BitVec 64} (h : s.tbInvalidatePhysPage addr = some t) :
    Shrinks s t := by
  obtain ⟨u, hu, rfl⟩ := map_eq_some_iff.mp h
  have hshrinks := invalidatePageLoop_shrinks hu
  exact ⟨hshrinks.htable, hshrinks.marked, hshrinks.invalid, hshrinks.tb⟩

end TbTables

/-! ### Blocks that were returned -/

/-- The tables, and the blocks that a generation returned with the address it was asked for, as long as they
are neither invalidated nor flushed. -/
structure Returned where
  tables : TbTables
  blocks : List (BitVec 64 × ℕ)

namespace Returned

def step (hostPageMask : BitVec 64) (r : Returned) : TbEvent → Option Returned
  | .addBlock pc size tcPtr =>
    (r.tables.addBlock hostPageMask pc size tcPtr).map fun (k, t) => ⟨t, (pc, k) :: r.blocks⟩
  | .flush => some ⟨r.tables.tbFlush, []⟩
  | e => (r.tables.step hostPageMask e).map fun t =>
    ⟨t, r.blocks.filter fun b => ¬ (t.tb b.2).invalid⟩

/-- For every block that was returned and is still good the lookup finds a block with its address. -/
def FoundAgain (r : Returned) : Prop :=
  ∀ b ∈ r.blocks, ∃ k, r.tables.tbHtableLookup b.1 = some k ∧ (r.tables.tb k).pc = b.1

end Returned

/-- A new block is for an address in memory, and by the size that it has in memory its code ends on its first
page or on the next one. -/
def TbEvent.SizeFits : TbEvent → Prop
  | .addBlock pc size _ => pc ≠ -1 ∧
    (secondPage pc size = none ∨ secondPage pc size = some (pageOf pc + targetPageSize))
  | _ => True

theorem pageOf_toNat (a : BitVec 64) : (pageOf a).toNat = a.toNat / 4096 * 4096 := by
  have hmask : pageOf a = (a >>> 12) <<< 12 := by
    apply eq_of_getLsbD_eq
    intro i hi
    have hbit : targetPageMask.getLsbD i = decide (12 ≤ i) :=
      (by decide +kernel : ∀ i : Fin 64, targetPageMask.getLsbD i = decide (12 ≤ i.val)) ⟨i, hi⟩
    rw [pageOf, getLsbD_and, hbit, getLsbD_shiftLeft, getLsbD_ushiftRight]
    by_cases h12 : 12 ≤ i
    · simp [h12, hi, show ¬ i < 12 by omega, show 12 + (i - 12) = i by omega]
    · simp [h12, show i < 12 by omega]
  rw [hmask, toNat_shiftLeft, toNat_ushiftRight, Nat.shiftRight_eq_div_pow,
    Nat.shiftLeft_eq]
  have := a.isLt
  omega

variable {pc : BitVec 64}

/-- Guest code of at most a page meets the condition, wherever it is. -/
theorem sizeFits_of_le {tcPtr : BitVec 64} {size : BitVec 16} (hpc : pc ≠ -1) (hlo : 1 ≤ size.toNat)
    (hhi : size.toNat ≤ 4096) : (TbEvent.addBlock pc size tcPtr).SizeFits := by
  refine ⟨hpc, ?_⟩
  rw [secondPage]
  by_cases hne : pageOf pc ≠ pageOf (pc + size.setWidth 64 - 1)
  · rw [if_pos hne]
    refine .inr (congrArg some ?_)
    apply eq_of_toNat_eq
    have hne' : (pageOf pc).toNat ≠ (pageOf (pc + size.setWidth 64 - 1)).toNat := fun h =>
      hne (eq_of_toNat_eq h)
    have hlast : (pc + size.setWidth 64 - 1).toNat = (pc.toNat + size.toNat - 1) % 2 ^ 64 := by
      have := size.isLt
      rw [toNat_sub, toNat_add, toNat_setWidth]
      simp
      omega
    rw [pageOf_toNat, pageOf_toNat, hlast] at hne'
    rw [toNat_add, pageOf_toNat, pageOf_toNat, hlast]
    have := pc.isLt
    have hsize : targetPageSize.toNat = 4096 := rfl
    omega
  · exact .inl (if_neg hne)

def Accepted (tb : TbInfo) (pc : BitVec 64) : Prop :=
  pc ≠ -1 ∧ tbLookupCmp tb pc = true

theorem Accepted.pc_eq {tb : TbInfo} (h : Accepted tb pc) : tb.pc = pc := by
  have hcmp := h.2
  simp only [tbLookupCmp, Bool.and_eq_true, decide_eq_true_eq] at hcmp
  exact hcmp.1.1

theorem Accepted.congr {a b : TbInfo} (h : Accepted a pc)
    (hab : a.content = b.content) : Accepted b pc := by
  rw [TbInfo.content, TbInfo.content, TbInfo.mk.injEq] at hab
  obtain ⟨hpc, -, -, h0, h1, -⟩ := hab
  refine ⟨h.1, ?_⟩
  have hcmp := h.2
  rw [tbLookupCmp, hpc, h0, h1] at hcmp
  exact hcmp

theorem Accepted.of_sizeFits {tcPtr : BitVec 64} {size : BitVec 16}
    (h : (TbEvent.addBlock pc size tcPtr).SizeFits) :
    Accepted ⟨pc, size, tcPtr, pageOf pc, secondPage pc size, false⟩ pc := by
  refine ⟨h.1, ?_⟩
  obtain hnone | hnext := h.2
  · simp [tbLookupCmp, hnone]
  · simp [tbLookupCmp, hnext]

theorem Accepted.of_tbCmp {a b : TbInfo} (h : Accepted b pc) (hab : tbCmp a b = true) :
    Accepted a pc := by
  simp only [tbCmp, Bool.and_eq_true, decide_eq_true_eq] at hab
  refine ⟨h.1, ?_⟩
  rw [tbLookupCmp, hab.1.1, hab.1.2, hab.2]
  exact h.2

/-- Blocks in the hash table that are accepted are found. -/
theorem Accepted.lookup {s : TbTables} {k : ℕ} (h : Accepted (s.tb k) pc)
    (hk : k ∈ s.htable) : ∃ k', s.tbHtableLookup pc = some k' ∧ (s.tb k').pc = pc := by
  rw [tbHtableLookup, if_neg h.1]
  have hsome : (s.htable.find? fun k => tbLookupCmp (s.tb k) pc).isSome :=
    find?_isSome.mpr ⟨k, hk, h.2⟩
  obtain ⟨k', hk'⟩ := isSome_iff_exists.mp hsome
  have haccepted := find?_some hk'
  exact ⟨k', hk', Accepted.pc_eq ⟨h.1, haccepted⟩⟩

namespace Returned

structure Kept (r : Returned) : Prop where
  linked : ∃ L, r.tables.Linked L
  htable : ∀ b ∈ r.blocks, b.2 ∈ r.tables.htable
  accepted : ∀ b ∈ r.blocks, Accepted (r.tables.tb b.2) b.1

variable {r r' : Returned} {hostPageMask : BitVec 64}

theorem Kept.foundAgain (h : Kept r) : r.FoundAgain :=
  fun b hb => (h.accepted b hb).lookup (h.htable b hb)

theorem Kept.shrinks {t : TbTables} (h : Kept r) (hlinked : ∃ L, t.Linked L)
    (hshrinks : TbTables.Shrinks r.tables t) :
    Kept ⟨t, r.blocks.filter fun b => ¬ (t.tb b.2).invalid⟩ := by
  refine ⟨hlinked, fun b hb => ?_, fun b hb => ?_⟩
  · obtain ⟨hmem, hvalid⟩ := mem_filter.mp hb
    obtain hin | hinvalid := hshrinks.marked (h.htable b hmem)
    · exact hin
    · exact absurd hinvalid (of_decide_eq_true hvalid)
  · exact (h.accepted b (mem_of_mem_filter hb)).congr (hshrinks.tb b.2).symm

theorem Kept.addBlock {pc tcPtr : BitVec 64} {size : BitVec 16} (h : Kept r)
    (hfits : (TbEvent.addBlock pc size tcPtr).SizeFits)
    (hr : r.step hostPageMask (.addBlock pc size tcPtr) = some r') : Kept r' := by
  obtain ⟨L, hL⟩ := h.linked
  obtain ⟨k, t, L', ht, hL', hcases⟩ := hL.addBlock hostPageMask hfits.1 size tcPtr
  rw [step, ht] at hr
  cases hr
  have hnew := Accepted.of_sizeFits hfits
  obtain ⟨rfl, htable, htb, -⟩ | ⟨hk, htable, hcmp, htb⟩ := hcases
  · -- the new block goes into the hash table and leaves the others alone
    have hold : ∀ b ∈ r.blocks, t.tb b.2 = r.tables.tb b.2 := fun b hb => by
      rw [htb]
      exact Function.update_of_ne (hL.allocated (h.htable b hb)).ne _ _
    refine ⟨⟨L', hL'⟩, fun b hb => ?_, fun b hb => ?_⟩
    · rw [htable]
      obtain rfl | hb := mem_cons.mp hb
      · exact mem_cons_self
      · exact mem_cons_of_mem _ (h.htable b hb)
    · obtain rfl | hb := mem_cons.mp hb
      · simp only [htb, Function.update_self]
        exact hnew
      · simp only [hold b hb]
        exact h.accepted b hb
  · -- an equal block was there
    refine ⟨⟨L', hL'⟩, fun b hb => ?_, fun b hb => ?_⟩
    · rw [htable]
      obtain rfl | hb := mem_cons.mp hb
      · exact hk
      · exact h.htable b hb
    · obtain rfl | hb := mem_cons.mp hb
      · simp only [htb k hk]
        exact hnew.of_tbCmp hcmp
      · simp only [htb b.2 (h.htable b hb)]
        exact h.accepted b hb

theorem Kept.step {e : TbEvent} (h : Kept r) (hfits : e.SizeFits)
    (hr : r.step hostPageMask e = some r') : Kept r' := by
  have hshrink : ∀ {t}, r.tables.step hostPageMask e = some t →
      TbTables.Shrinks r.tables t → Kept ⟨t, r.blocks.filter fun b => ¬ (t.tb b.2).invalid⟩ := by
    intro t ht hshrinks
    obtain ⟨L, hL⟩ := h.linked
    obtain ⟨u, L', hu, hL'⟩ := hL.step hostPageMask e
    obtain rfl := Option.some.inj (ht.symm.trans hu)
    exact h.shrinks ⟨L', hL'⟩ hshrinks
  cases e with
  | addBlock pc size tcPtr => exact h.addBlock hfits hr
  | physInvalidate k whole =>
    obtain ⟨t, ht, rfl⟩ := map_eq_some_iff.mp hr
    exact hshrink ht (doTbPhysInvalidate_shrinks ht)
  | invalidatePhysPage addr =>
    obtain ⟨t, ht, rfl⟩ := map_eq_some_iff.mp hr
    exact hshrink ht (tbInvalidatePhysPage_shrinks ht)
  | invalidatePhysPageRange start stop =>
    obtain ⟨t, ht, rfl⟩ := map_eq_some_iff.mp hr
    exact hshrink ht (invalidateRangeLoop_shrinks ht)
  | flush =>
    cases hr
    exact ⟨⟨_, TbTables.Linked.tbFlush _⟩, fun b hb => (nomatch hb), fun b hb => (nomatch hb)⟩

end Returned

/-- In every run whose new blocks fit, blocks that were returned and are still good are found again. -/
theorem returned_foundAgain (hostPageMask : BitVec 64) (flags : BitVec 64 → BitVec 32)
    (es : List TbEvent) (hfits : ∀ e ∈ es, e.SizeFits) (r : Returned)
    (hr : Runs.Reaches (fun r e r' => Returned.step hostPageMask r e = some r') ⟨.empty flags, []⟩ es r) :
    r.FoundAgain := by
  have hkept : r.Kept := by
    refine hr.invariant_of_mem (I := Returned.Kept) (fun e he s t hs ht => hs.step (hfits e he) ht) ?_
    exact ⟨⟨_, TbTables.Linked.empty flags⟩, fun b hb => (nomatch hb), fun b hb => (nomatch hb)⟩
  exact hkept.foundAgain

/-- A block of guest code on two pages, and one of host code within a page. -/
theorem returned_foundAgain_guestAndHost :
    ∃ r, Runs.Reaches (fun r e r' => Returned.step (~~~0xfff) r e = some r') ⟨.empty fun _ => 0, []⟩
        [.addBlock 0x10000ffc 8 0x20000, .addBlock 0x7fff20000010 0 0x20100] r ∧
      r.blocks.length = 2 ∧ r.FoundAgain := by
  obtain ⟨r, hr, hlength⟩ : ∃ r, Runs.Reaches (fun r e r' => Returned.step (~~~0xfff) r e = some r')
      ⟨.empty fun _ => 0, []⟩ [.addBlock 0x10000ffc 8 0x20000, .addBlock 0x7fff20000010 0 0x20100] r ∧
        r.blocks.length = 2 :=
    ⟨_, .cons rfl (.cons rfl (.nil _)), rfl⟩
  refine ⟨r, hr, hlength, returned_foundAgain _ _ _ (fun e he => ?_) r hr⟩
  simp only [mem_cons, not_mem_nil, or_false] at he
  obtain rfl | rfl := he
  · exact sizeFits_of_le (by decide) (by decide) (by decide)
  · exact ⟨by decide, .inl (by decide)⟩

/-- The block for host code at the start of a page is not found: its size is zero in fresh memory, so its last
byte counts as one of the page before. -/
theorem returned_foundAgain_pageStart :
    ∃ r, Runs.Reaches (fun r e r' => Returned.step (~~~0xfff) r e = some r') ⟨.empty fun _ => 0, []⟩
        [.addBlock 0x7fff20000000 0 0x20100] r ∧
      (0x7fff20000000, 0) ∈ r.blocks ∧ r.tables.tbHtableLookup 0x7fff20000000 = none ∧
      ¬ r.FoundAgain := by
  obtain ⟨r, hr, hmem, hnone⟩ : ∃ r,
      Runs.Reaches (fun r e r' => Returned.step (~~~0xfff) r e = some r') ⟨.empty fun _ => 0, []⟩
        [.addBlock 0x7fff20000000 0 0x20100] r ∧
      (0x7fff20000000, 0) ∈ r.blocks ∧ r.tables.tbHtableLookup 0x7fff20000000 = none :=
    ⟨_, .cons rfl (.nil _), mem_cons_self, by decide⟩
  refine ⟨r, hr, hmem, hnone, fun hfound => ?_⟩
  obtain ⟨k, hk, -⟩ := hfound _ hmem
  exact absurd (hnone.symm.trans hk) (by simp)

namespace TbTables

/-! ### One block for an address -/

/-- No two blocks in the hash table are equal to `tb_cmp`. -/
def Unique (s : TbTables) : Prop :=
  ∀ j ∈ s.htable, ∀ k ∈ s.htable, tbCmp (s.tb j) (s.tb k) = true → j = k

variable {s t : TbTables} {hostPageMask : BitVec 64}

theorem tbCmp_comm (a b : TbInfo) : tbCmp a b = tbCmp b a := by
  simp only [tbCmp, eq_comm]

theorem Unique.mono (h : Unique s)
    (hsub : ∀ j ∈ t.htable, j ∈ s.htable ∧ (t.tb j).content = (s.tb j).content) : Unique t := by
  intro j hj k hk hcmp
  refine h j (hsub j hj).1 k (hsub k hk).1 ?_
  change tbCmp (s.tb j).content (s.tb k).content = true
  rw [← (hsub j hj).2, ← (hsub k hk).2]
  exact hcmp

theorem Unique.shrinks (h : Unique s) (hshrinks : Shrinks s t) : Unique t :=
  h.mono fun j hj => ⟨hshrinks.htable.subset hj, hshrinks.tb j⟩

theorem Unique.addBlock {L : BitVec 64 → List ℕ} {pc tcPtr : BitVec 64} {size : BitVec 16} (h : Unique s)
    (hL : s.Linked L) (ht : s.step hostPageMask (.addBlock pc size tcPtr) = some t) : Unique t := by
  by_cases hpc : pc = -1
  · subst hpc
    obtain ⟨u, hu, -, htable, htb⟩ := hL.addBlock_oneShot hostPageMask size tcPtr
    rw [step, hu] at ht
    cases ht
    exact h.mono fun j hj => ⟨htable ▸ hj, congrArg TbInfo.content (htb j (htable ▸ hj))⟩
  obtain ⟨r, u, L', hu, -, hcases⟩ := hL.addBlock hostPageMask hpc size tcPtr
  rw [step, hu] at ht
  cases ht
  obtain ⟨-, htable, htb, hnew⟩ | ⟨-, htable, -, htb⟩ := hcases
  · have hold {j} (hj : j ∈ s.htable) : u.tb j = s.tb j := by
      rw [htb]
      exact Function.update_of_ne (hL.allocated hj).ne _ _
    have hown : u.tb s.next = ⟨pc, size, tcPtr, pageOf pc, secondPage pc size, false⟩ := by
      rw [htb, Function.update_self]
    intro j hj k hk hcmp
    rw [htable] at hj hk
    obtain rfl | hj := mem_cons.mp hj <;> obtain rfl | hk := mem_cons.mp hk
    · rfl
    · rw [tbCmp_comm, hown, hold hk, hnew k hk] at hcmp
      cases hcmp
    · rw [hown, hold hj, hnew j hj] at hcmp
      cases hcmp
    · rw [hold hj, hold hk] at hcmp
      exact h j hj k hk hcmp
  · exact h.mono fun j hj => ⟨htable ▸ hj, congrArg TbInfo.content (htb j (htable ▸ hj))⟩

theorem Unique.step {L : BitVec 64 → List ℕ} {e : TbEvent} (h : Unique s) (hL : s.Linked L)
    (ht : s.step hostPageMask e = some t) : Unique t := by
  cases e with
  | addBlock pc size tcPtr => exact h.addBlock hL ht
  | physInvalidate k whole => exact h.shrinks (doTbPhysInvalidate_shrinks ht)
  | invalidatePhysPage addr => exact h.shrinks (tbInvalidatePhysPage_shrinks ht)
  | invalidatePhysPageRange start stop => exact h.shrinks (invalidateRangeLoop_shrinks ht)
  | flush =>
    cases ht
    exact fun j hj => (nomatch hj)

/-- In every run there is one block in the hash table at most for an address and its pages, and
`tb_invalidate_phys_page` takes out exactly the blocks on the page. -/
theorem unique_run (flags : BitVec 64 → BitVec 32) (es : List TbEvent)
    (hs : Runs.Reaches (fun s e t => s.step hostPageMask e = some t) (.empty flags) es s) :
    Unique s ∧ ∀ addr, ∃ t, s.tbInvalidatePhysPage addr = some t ∧ ∀ k, k ∈ t.htable ↔ k ∈ s.htable ∧
      (s.tb k).pageAddr0 ≠ pageOf addr ∧ (s.tb k).pageAddr1 ≠ some (pageOf addr) := by
  obtain ⟨⟨L, hL⟩, hunique⟩ : (∃ L, s.Linked L) ∧ Unique s := by
    refine hs.invariant (I := fun s => (∃ L, s.Linked L) ∧ Unique s) (fun s e t ⟨⟨L, hL⟩, h⟩ ht => ?_)
      ⟨⟨_, Linked.empty flags⟩, fun j hj => (nomatch hj)⟩
    obtain ⟨t', L', ht', hL'⟩ := hL.step hostPageMask e
    obtain rfl := Option.some.inj (ht.symm.trans ht')
    exact ⟨⟨L', hL'⟩, h.step hL ht⟩
  refine ⟨hunique, fun addr => ?_⟩
  obtain ⟨t, ht, -, htable, -⟩ := hL.tbInvalidatePhysPage addr
  refine ⟨t, ht, fun k => ?_⟩
  rw [htable, mem_filter, decide_eq_true_iff]
  refine and_congr_right fun hk => ?_
  constructor
  · intro hnot
    refine ⟨fun h0 => hnot (mem_map.mpr ⟨2 * k + 0, hL.live hk (by decide) (congrArg some h0), by omega⟩),
      fun h1 => hnot (mem_map.mpr ⟨2 * k + 1, hL.live hk (by decide) h1, by omega⟩)⟩
  · rintro ⟨h0, h1⟩ hmem
    obtain ⟨a, ha, rfl⟩ := mem_map.mp hmem
    have hpage := (hL.node ha).2
    rw [TbInfo.pageAddr] at hpage
    split at hpage
    · exact h0 (Option.some.inj hpage)
    · exact h1 hpage

/-- The second block for the address is not put into the table. -/
theorem unique_run_twice : ∃ es s, Runs.Reaches (fun s e t => step (~~~0xfff) s e = some t) (.empty fun _ => 0) es s ∧
    s.htable = [0] ∧ Unique s := by
  obtain ⟨s, hs, htable⟩ : ∃ s, Runs.Reaches (fun s e t => step (~~~0xfff) s e = some t) (.empty fun _ => 0)
      [.addBlock 0x10000ffc 8 0x20000, .addBlock 0x10000ffc 8 0x20100] s ∧ s.htable = [0] :=
    ⟨_, .cons rfl (.cons rfl (.nil _)), rfl⟩
  exact ⟨_, s, hs, htable, (unique_run _ _ hs).1⟩

end TbTables

end Iqemu64
