import Iqemu64.StaleBlocks

/-!
# Host pages and guest pages

A host page can hold several guest pages. The search for free memory steps over host pages, and a change
of protection or a mapping at a fixed address treats the host pages at both ends of a range apart.
-/

namespace Iqemu64

/-! ### Rounding to host pages -/

structure MapHost.Paged (H : MapHost) (k : ℕ) : Prop where
  size : H.pageSize = BitVec.ofNat 64 (2 ^ k)
  guest : 12 ≤ k
  lt : k < 64

section Paged
variable {H : MapHost} {k : ℕ} (hH : H.Paged k)
include hH

theorem MapHost.Paged.toNat_pageSize : H.pageSize.toNat = 2 ^ k := by
  rw [hH.size, BitVec.toNat_ofNat]
  exact Nat.mod_eq_of_lt (Nat.pow_lt_pow_right (by norm_num) hH.lt)

theorem MapHost.Paged.dvd : 4096 ∣ 2 ^ k := Nat.pow_dvd_pow 2 hH.guest

theorem MapHost.Paged.toNat_mask (a : BitVec 64) : (a &&& H.pageMask).toNat = a.toNat / 2 ^ k * 2 ^ k := by
  have hlt : 2 ^ k < 2 ^ 64 := Nat.pow_lt_pow_right (by norm_num) hH.lt
  have hmask : H.pageMask.toNat = 2 ^ 64 - (2 ^ k - 1 + 1) := by
    rw [MapHost.pageMask, BitVec.toNat_neg, hH.toNat_pageSize, Nat.sub_add_cancel Nat.one_le_two_pow]
    exact Nat.mod_eq_of_lt (by have := Nat.two_pow_pos k; omega)
  rw [BitVec.toNat_and, hmask]
  refine Nat.eq_of_testBit_eq fun i => ?_
  rw [Nat.testBit_and, Nat.testBit_two_pow_sub_succ (by omega), Nat.testBit_two_pow_sub_one,
    Nat.testBit_mul_two_pow, Nat.testBit_div_two_pow]
  by_cases hi : i < k
  · simp [hi]
  · rw [decide_eq_false hi, Nat.sub_add_cancel (by omega)]
    by_cases hw : i < 64
    · simp [hw, Nat.not_lt.mp hi]
    · simp [Nat.testBit_lt_two_pow (a.isLt.trans_le (Nat.pow_le_pow_right (by norm_num) (Nat.not_lt.mp hw)))]

theorem MapHost.Paged.dvd_mask (a : BitVec 64) : 2 ^ k ∣ (a &&& H.pageMask).toNat := by
  rw [hH.toNat_mask]
  exact Nat.dvd_mul_left _ _

end Paged

/-! ### Flags of a range -/

theorem exists_pagesBetween {a b : BitVec 64} (ha : 4096 ∣ a.toNat) (hb : 4096 ∣ b.toNat) (P : BitVec 64 → Prop) :
    (∃ p ∈ pagesBetween a b, P (pageOf p)) ↔ ∃ x, InRange a b x ∧ P (pageOf x) := by
  have hvalue (i : ℕ) (hi : i < (b.toNat - a.toNat + 4095) / 4096) :
      (a + BitVec.ofNat 64 (4096 * i)).toNat = a.toNat + 4096 * i := by
    rw [BitVec.toNat_add, BitVec.toNat_ofNat]
    have := b.isLt
    omega
  constructor
  · rintro ⟨p, hp, h⟩
    obtain ⟨i, hi, rfl⟩ := List.mem_map.mp hp
    have hi := List.mem_range.mp hi
    refine ⟨_, ⟨?_, ?_⟩, h⟩
    · rw [BitVec.le_def, hvalue i hi]
      omega
    · rw [BitVec.lt_def, hvalue i hi]
      omega
  · rintro ⟨x, ⟨hax, hxb⟩, h⟩
    rw [BitVec.le_def] at hax
    rw [BitVec.lt_def] at hxb
    have hi : (x.toNat - a.toNat) / 4096 < (b.toNat - a.toNat + 4095) / 4096 := by omega
    refine ⟨_, List.mem_map.mpr ⟨_, List.mem_range.mpr hi, rfl⟩, ?_⟩
    convert h using 1
    apply BitVec.eq_of_toNat_eq
    rw [pageOf_toNat, pageOf_toNat, hvalue _ hi]
    omega

theorem getLsbD_foldl_or {α : Type} (f : α → BitVec 32) (l : List α) (x : BitVec 32) (i : ℕ) :
    (l.foldl (fun x a => x ||| f a) x).getLsbD i = true ↔
      x.getLsbD i = true ∨ ∃ a ∈ l, (f a).getLsbD i = true := by
  induction l generalizing x with
  | nil => simp
  | cons a l ih => simp [ih, or_assoc]

namespace TbTables

theorem getLsbD_flagsUnion {s : TbTables} {a b : BitVec 64} (ha : 4096 ∣ a.toNat) (hb : 4096 ∣ b.toNat) (i : ℕ) :
    (s.flagsUnion a b).getLsbD i = true ↔ ∃ x, InRange a b x ∧ (s.pageGetFlags x).getLsbD i = true := by
  rw [flagsUnion, getLsbD_foldl_or, BitVec.ofNat_eq_ofNat, BitVec.getLsbD_zero]
  exact (or_iff_right (by decide)).trans (exists_pagesBetween ha hb fun p => (s.flags p).getLsbD i = true)

theorem flagsUnion_eq_zero {s : TbTables} {a b : BitVec 64} (ha : 4096 ∣ a.toNat) (hb : 4096 ∣ b.toNat) :
    s.flagsUnion a b = 0 ↔ ∀ x, InRange a b x → s.pageGetFlags x = 0 := by
  simp only [BitVec.ofNat_eq_ofNat, BitVec.zero_iff_eq_false, ← Bool.not_eq_true, getLsbD_flagsUnion ha hb, not_exists, not_and]
  exact ⟨fun h x hx i => h i x hx, fun h i x hx => h x hx i⟩

structure FreeRange (s : TbTables) (addr size : ℕ) : Prop where
  fits : addr + size ≤ 2 ^ 64
  free : ∀ a : BitVec 64, addr ≤ a.toNat → a.toNat < addr + size → s.pageGetFlags a = 0

end TbTables

/-! ### The search for free memory -/

namespace MapState
open TbTables
variable {H : MapHost} {k : ℕ} {s u : MapState} {start size addrStart : BitVec 64}

/-- The search stops at the first free range, or at the first one that reaches the end of the address
space, which is not looked at. -/
theorem findVmaLoop_spec (hH : H.Paged k) (hsize : 2 ^ k ∣ size.toNat) {fuel : ℕ} {addr : BitVec 64}
    (haddr : 2 ^ k ∣ addr.toNat) (hstart : addrStart ≤ addr) (hfuel : 2 ^ 64 ≤ addr.toNat + fuel) :
    ∃ n found, s.findVmaLoop H addrStart size fuel addr = some found ∧ found.toNat = addr.toNat + n * 2 ^ k ∧
      (found.toNat + size.toNat < 2 ^ 64 → FreeRange s.tables found.toNat size.toNat) ∧
      ∀ m < n, ¬ FreeRange s.tables (addr.toNat + m * 2 ^ k) size.toNat := by
  induction fuel generalizing addr with
  | zero => exact absurd addr.isLt (by omega)
  | succ fuel ih =>
    have hend (h : addr.toNat + size.toNat < 2 ^ 64) : (addr + size).toNat = addr.toNat + size.toNat := by
      rw [BitVec.toNat_add, Nat.mod_eq_of_lt h]
    have hfree (h : addr.toNat + size.toNat < 2 ^ 64) : s.tables.flagsUnion addr (addr + size) = 0 ↔
        FreeRange s.tables addr.toNat size.toNat := by
      rw [flagsUnion_eq_zero (hH.dvd.trans haddr)
        (by rw [hend h]; exact hH.dvd.trans (Nat.dvd_add haddr hsize))]
      refine ⟨fun hx => ⟨h.le, fun a ha ha' => hx a ⟨ha, ?_⟩⟩, fun hx a ha => hx.free a ha.1 ?_⟩
      · rwa [BitVec.lt_def, hend h]
      · rw [← hend h]
        exact ha.2
    rw [findVmaLoop]
    by_cases hzero : s.tables.flagsUnion addr (addr + size) = 0
    · refine ⟨0, addr, if_pos hzero, by rw [Nat.zero_mul, Nat.add_zero], fun h => (hfree h).mp hzero, ?_⟩
      exact fun m hm => absurd hm (Nat.not_lt_zero m)
    have hlt : addr.toNat + size.toNat < 2 ^ 64 := by
      -- a range that wraps around has no pages to look at
      by_contra hge
      refine hzero ?_
      have hwrap : (addr + size).toNat - addr.toNat = 0 := by
        rw [BitVec.toNat_add]
        have := addr.isLt
        have := size.isLt
        omega
      rw [flagsUnion, pagesBetween, hwrap]
      rfl
    have hne : size.toNat ≠ 0 := by
      intro h0
      refine hzero ((hfree hlt).mpr ⟨hlt.le, fun a ha ha' => ?_⟩)
      omega
    have hpos := Nat.le_of_dvd (Nat.pos_of_ne_zero hne) hsize
    have hnext : (addr + H.pageSize).toNat = addr.toNat + 2 ^ k := by
      rw [BitVec.toNat_add, hH.toNat_pageSize, Nat.mod_eq_of_lt (by omega)]
    have hk := Nat.two_pow_pos k
    have hback : addr + H.pageSize ≠ addrStart := by
      intro h
      rw [← h, BitVec.le_def, hnext] at hstart
      omega
    obtain ⟨n, found, hfound, htoNat, hend', hmin⟩ := @ih (addr + H.pageSize)
      (by rw [hnext]; exact Nat.dvd_add haddr dvd_rfl) (by rw [BitVec.le_def] at hstart ⊢; omega) (by omega)
    rw [if_neg hzero, if_neg hback]
    rw [hnext] at htoNat hmin
    refine ⟨n + 1, found, hfound, by rw [htoNat, Nat.add_mul]; omega, hend', fun m hm => ?_⟩
    cases m with
    | zero =>
      rw [Nat.zero_mul, Nat.add_zero, ← hfree hlt]
      exact hzero
    | succ m =>
      rw [Nat.add_mul, Nat.one_mul, Nat.add_comm (m * _), ← Nat.add_assoc]
      exact hmin m (by omega)

theorem mmapFindVma_found {found : BitVec 64} (hbrk : s.reserveBrk H = some u)
    (hfound : u.findVmaLoop H (if start &&& H.pageMask = 0 then u.mmapNextStart else start &&& H.pageMask)
      (H.pageAlign size) (2 ^ 64) (if start &&& H.pageMask = 0 then u.mmapNextStart else start &&& H.pageMask) =
      some found) (hne : found ≠ -1) :
    ∃ t, s.mmapFindVma H start size = some (found, t) ∧ t.tables = u.tables := by
  rw [mmapFindVma, hbrk]
  change ∃ t, (u.findVmaLoop H _ (H.pageAlign size) (2 ^ 64) _).bind _ = _ ∧ _
  rw [hfound]
  simp only [Option.bind_some, if_neg hne]
  split_ifs
  · exact ⟨_, rfl, rfl⟩
  · exact ⟨_, rfl, rfl⟩

/-- What the search returns is free if and only if there is such a range at one of the host pages from
the hint up. -/
theorem mmapFindVma_free_iff (hH : H.Paged k) (hbrk : s.reserveBrk H = some u)
    (hnext : 2 ^ k ∣ u.mmapNextStart.toNat) :
    (∀ found t, s.mmapFindVma H start size = some (found, t) → found ≠ -1 →
      FreeRange t.tables found.toNat (H.pageAlign size).toNat) ↔
    ∃ n, FreeRange u.tables ((if start &&& H.pageMask = 0 then u.mmapNextStart else start &&& H.pageMask).toNat +
      n * 2 ^ k) (H.pageAlign size).toNat := by
  set addr := if start &&& H.pageMask = 0 then u.mmapNextStart else start &&& H.pageMask
  have haddr : 2 ^ k ∣ addr.toNat := by
    dsimp only [addr]
    split_ifs
    · exact hnext
    · exact hH.dvd_mask start
  have hsize : 2 ^ k ∣ (H.pageAlign size).toNat := hH.dvd_mask _
  obtain ⟨n, found, hfound, htoNat, hfree, hmin⟩ := findVmaLoop_spec (s := u) hH hsize haddr
    (BitVec.le_refl addr) (Nat.le_add_left (2 ^ 64) addr.toNat)
  have hne : found ≠ -1 := by
    rintro rfl
    have hdvd : 4096 ∣ (-1 : BitVec 64).toNat := by
      rw [htoNat]
      exact hH.dvd.trans (Nat.dvd_add haddr (Nat.dvd_mul_left _ _))
    revert hdvd
    decide
  obtain ⟨t, ht, htables⟩ := mmapFindVma_found hbrk hfound hne
  constructor
  · intro h
    have := h found t ht hne
    rw [htables, htoNat] at this
    exact ⟨n, this⟩
  · rintro ⟨m, hm⟩ found' t' ht' -
    cases ht.symm.trans ht'
    rw [htables]
    have hnm : n ≤ m := Nat.not_lt.mp fun hlt => hmin m hlt hm
    by_cases hlt : found.toNat + (H.pageAlign size).toNat < 2 ^ 64
    · exact hfree hlt
    · have hmn : m * 2 ^ k ≤ n * 2 ^ k := by
        have := hm.fits
        omega
      rw [htoNat, Nat.le_antisymm hnm (Nat.le_of_mul_le_mul_right hmn (Nat.two_pow_pos k))]
      exact hm

def fourKHost : MapHost := ⟨0x1000, 0, fun _ _ _ _ _ => none, fun _ _ _ => true, fun _ _ => true⟩

theorem fourKHost_paged : fourKHost.Paged 12 := ⟨rfl, by norm_num, by norm_num⟩

/-- One page of an empty address space. -/
theorem mmapFindVma_page : FreeRange (.empty fun _ => 0) 0x40000000 0x1000 ∧ ∀ found t,
    mmapFindVma fourKHost ⟨.empty fun _ => 0, 0, 0x40000000⟩ 0 0x1000 = some (found, t) → found ≠ -1 →
      FreeRange t.tables found.toNat 0x1000 := by
  have hfree : FreeRange (.empty fun _ => 0) 0x40000000 0x1000 := ⟨by decide, fun _ _ _ => rfl⟩
  exact ⟨hfree, (mmapFindVma_free_iff fourKHost_paged rfl (by decide)).mpr ⟨0, hfree⟩⟩

/-- The whole address space but two pages, from the third page on. -/
theorem mmapFindVma_wraps : ∃ t,
    mmapFindVma fourKHost ⟨.empty fun _ => 0, 0, 0x40000000⟩ 0x3000 0xffffffffffffe000 = some (0x3000, t) ∧
      ¬ FreeRange t.tables 0x3000 0xffffffffffffe000 := by
  refine Exists.imp (fun t ht => ⟨And.left ht, fun h => absurd h.fits (by norm_num)⟩)
    (mmapFindVma_found rfl ?_ (by decide))
  rw [show (2 : ℕ) ^ 64 = 2 ^ 64 - 1 + 1 by norm_num, findVmaLoop, if_pos (by decide)]
  rfl

end MapState

end Iqemu64
