import Iqemu64.StaleBlocks

/-!
# Invalidating a range of addresses

`tbInvalidatePhysRange` cuts a range into pieces of pages and invalidates, on the list of each page,
the blocks that meet the piece.
-/

namespace Iqemu64
open TbTables

structure TbInfo.Placed (tb : TbInfo) : Prop where
  pos : 0 < tb.size.toNat
  short : tb.size.toNat < 4096
  page0 : tb.pageAddr0 = pageOf tb.pc
  page1 : tb.pageAddr1 = secondPage tb.pc tb.size

def TbInfo.Meets (tb : TbInfo) (start stop : BitVec 64) : Prop :=
  ∃ a, InRange start stop a ∧ tb.Covers a

namespace TbTables

def invalidatePagesLoop (stop : BitVec 64) : ℕ → TbTables → BitVec 64 → BitVec 64 → Option TbTables
  | 0, _, _, _ => none
  | fuel + 1, s, start, next =>
    if start < stop then
      (s.tbInvalidatePhysPageRange start (if next < stop then next else stop)).bind fun t =>
        invalidatePagesLoop stop fuel t next (next + targetPageSize)
    else some s

/-- `tb_invalidate_phys_range`. -/
def tbInvalidatePhysRange (fuel : ℕ) (s : TbTables) (start stop : BitVec 64) : Option TbTables :=
  invalidatePagesLoop stop fuel s start (pageOf start + targetPageSize)

end TbTables

/-! ### A block and the pages it is on -/

section

variable {tb : TbInfo} {a p start stop : BitVec 64} {n : ℕ}

theorem toNat_and_offset (a : BitVec 64) : (a &&& ~~~targetPageMask).toNat = a.toNat % 4096 := by
  rw [BitVec.toNat_and]
  exact Nat.and_two_pow_sub_one_eq_mod a.toNat 12

theorem TbInfo.covers_toNat : tb.Covers a ↔
    (a.toNat + (2 ^ 64 - tb.pc.toNat)) % 2 ^ 64 < tb.size.toNat := by
  rw [Covers, BitVec.toNat_sub]
  rw [Nat.add_comm]

theorem lastByte_toNat (h : tb.Placed) :
    (tb.pc + tb.size.setWidth 64 - 1).toNat = (tb.pc.toNat + tb.size.toNat - 1) % 2 ^ 64 := by
  have hpos := h.pos
  have hshort := h.short
  have hpc := tb.pc.isLt
  rw [BitVec.toNat_sub, BitVec.toNat_add, BitVec.toNat_setWidth_of_le (by decide)]
  show (2 ^ 64 - 1 + _) % _ = _
  omega

theorem TbInfo.Placed.onPage (h : tb.Placed) (ha : tb.Covers a) : tb.OnPage (pageOf a) := by
  have hpos := h.pos
  have hshort := h.short
  have hpc := tb.pc.isLt
  have haLt := a.isLt
  rw [TbInfo.covers_toNat] at ha
  by_cases hfirst : pageOf a = pageOf tb.pc
  · exact .inl (h.page0.trans hfirst.symm)
  · have hlast : pageOf (tb.pc + tb.size.setWidth 64 - 1) = pageOf a := by
      rw [← BitVec.toNat_inj, pageOf_toNat, pageOf_toNat] at hfirst
      rw [← BitVec.toNat_inj, pageOf_toNat, pageOf_toNat, lastByte_toNat h]
      omega
    refine .inr ?_
    rw [h.page1, secondPage, hlast]
    exact if_pos (Ne.symm hfirst)

/-- The part of a block that its link on the page shows, as far as the page goes. -/
theorem TbInfo.Placed.tbRange_toNat (h : tb.Placed) (hn : n < 2) (hpage : tb.pageAddr n = some p)
    (htop : p.toNat + 8192 ≤ 2 ^ 64) :
    (tbRange tb n).1 < (tbRange tb n).2 ∧ ∀ a, pageOf a = p →
      (tb.Covers a ↔ (tbRange tb n).1 ≤ a ∧ a < (tbRange tb n).2) := by
  have hpos := h.pos
  have hshort := h.short
  have hpc := tb.pc.isLt
  obtain rfl | rfl : n = 0 ∨ n = 1 := by omega
  · obtain rfl : pageOf tb.pc = p := h.page0.symm.trans (Option.some.inj hpage)
    rw [pageOf_toNat] at htop
    have hbegin : (tbRange tb 0).1 = tb.pc := by
      rw [← BitVec.toNat_inj]
      show (tb.pageAddr0 + (tb.pc &&& ~~~targetPageMask)).toNat = _
      rw [h.page0, BitVec.toNat_add, pageOf_toNat, toNat_and_offset]
      omega
    have hend : (tbRange tb 0).2.toNat = tb.pc.toNat + tb.size.toNat := by
      show ((tbRange tb 0).1 + tb.size.setWidth 64).toNat = _
      rw [hbegin, BitVec.toNat_add, BitVec.toNat_setWidth_of_le (by decide)]
      omega
    rw [hbegin]
    refine ⟨by rw [BitVec.lt_def, hend]; omega, fun a ha => ?_⟩
    rw [← BitVec.toNat_inj, pageOf_toNat, pageOf_toNat] at ha
    rw [TbInfo.covers_toNat, BitVec.le_def, BitVec.lt_def, hend]
    omega
  · have hsecond : secondPage tb.pc tb.size = some p := h.page1.symm.trans hpage
    unfold secondPage at hsecond
    simp only at hsecond
    split_ifs at hsecond with hne
    have hp : p.toNat = (tb.pc.toNat + tb.size.toNat - 1) % 2 ^ 64 / 4096 * 4096 := by
      rw [← Option.some.inj hsecond, pageOf_toNat, lastByte_toNat h]
    rw [ne_eq, ← BitVec.toNat_inj, pageOf_toNat, pageOf_toNat, lastByte_toNat h] at hne
    have hbegin : (tbRange tb 1).1 = p := by
      show tb.pageAddr1.getD (-1) = p
      rw [show tb.pageAddr1 = some p from hpage]
      rfl
    have hend : (tbRange tb 1).2.toNat =
        p.toNat + (tb.pc.toNat + tb.size.toNat) % 2 ^ 64 % 4096 := by
      show ((tbRange tb 1).1 + ((tb.pc + tb.size.setWidth 64) &&& ~~~targetPageMask)).toNat = _
      rw [hbegin, BitVec.toNat_add, toNat_and_offset, BitVec.toNat_add,
        BitVec.toNat_setWidth_of_le (by decide)]
      omega
    rw [hbegin]
    refine ⟨by rw [BitVec.lt_def, hend]; omega, fun a ha => ?_⟩
    rw [← BitVec.toNat_inj, pageOf_toNat] at ha
    have haLt := a.isLt
    rw [TbInfo.covers_toNat, BitVec.le_def, BitVec.lt_def, hend]
    omega

structure IsPiece (p start stop : BitVec 64) : Prop where
  page : pageOf start = p
  lt : start < stop
  le : stop.toNat ≤ p.toNat + 4096
  top : p.toNat + 8192 ≤ 2 ^ 64

theorem IsPiece.pageOf_eq (h : IsPiece p start stop) (ha : InRange start stop a) : pageOf a = p := by
  have hpage : start.toNat / 4096 * 4096 = p.toNat := by rw [← pageOf_toNat, h.page]
  have hle := h.le
  have hfrom : start.toNat ≤ a.toNat := ha.1
  have hto : a.toNat < stop.toNat := ha.2
  have hdiv : a.toNat / 4096 = start.toNat / 4096 := Nat.div_eq_of_lt_le (by omega) (by omega)
  apply BitVec.eq_of_toNat_eq
  rw [pageOf_toNat, hdiv, hpage]

/-- Through a link on the page of a piece, the block overlaps the piece if it has a byte in it. -/
theorem TbInfo.Placed.overlaps_iff (h : tb.Placed) (hn : n < 2) (hpage : tb.pageAddr n = some p)
    (hpiece : IsPiece p start stop) : TbTables.Overlaps start stop tb n ↔ tb.Meets start stop := by
  obtain ⟨hne, hcovers⟩ := h.tbRange_toNat hn hpage hpiece.top
  rw [TbTables.Overlaps, not_or, BitVec.not_le, BitVec.not_le]
  constructor
  · rintro ⟨hend, hbegin⟩
    obtain hle | hle := BitVec.le_total (tbRange tb n).1 start
    · have hin : InRange start stop start := ⟨BitVec.le_refl _, hpiece.lt⟩
      exact ⟨start, hin, (hcovers start (hpiece.pageOf_eq hin)).mpr ⟨hle, hend⟩⟩
    · have hin : InRange start stop (tbRange tb n).1 := ⟨hle, hbegin⟩
      exact ⟨_, hin, (hcovers _ (hpiece.pageOf_eq hin)).mpr ⟨BitVec.le_refl _, hne⟩⟩
  · rintro ⟨a, hin, ha⟩
    obtain ⟨hbegin, hend⟩ := (hcovers a (hpiece.pageOf_eq hin)).mp ha
    exact ⟨Nat.lt_of_le_of_lt hin.1 hend, Nat.lt_of_le_of_lt hbegin hin.2⟩

theorem TbInfo.Meets.congr {tb' : TbInfo} (hcontent : tb.content = tb'.content) :
    tb.Meets start stop ↔ tb'.Meets start stop :=
  exists_congr fun _ => and_congr_right fun _ => TbInfo.Covers.congr hcontent

theorem TbInfo.Placed.congr {tb' : TbInfo} (hcontent : tb.content = tb'.content) (h : tb.Placed) :
    tb'.Placed := by
  rw [TbInfo.content, TbInfo.content, TbInfo.mk.injEq] at hcontent
  obtain ⟨hpc, hsize, -, h0, h1, -⟩ := hcontent
  exact ⟨hsize ▸ h.pos, hsize ▸ h.short, h0 ▸ hpc ▸ h.page0, h1 ▸ hpc ▸ hsize ▸ h.page1⟩

end

/-! ### One piece and the whole range -/

namespace TbTables

variable {s t : TbTables} {p start stop : BitVec 64}

structure Sound (s : TbTables) : Prop where
  linked : s.WellLinked
  placed : ∀ k ∈ s.htable, (s.tb k).Placed

structure Clears (s t : TbTables) (start stop : BitVec 64) : Prop where
  sound : t.Sound
  content : ∀ k, (t.tb k).content = (s.tb k).content
  htable : ∀ k, k ∈ t.htable ↔ k ∈ s.htable ∧ ¬ (s.tb k).Meets start stop

theorem Sound.clears_piece (h : s.Sound) (hpiece : IsPiece p start stop) :
    ∃ t, s.tbInvalidatePhysPageRange start stop = some t ∧ Clears s t start stop := by
  obtain ⟨L, hL⟩ := h.linked
  obtain ⟨t, L', ht, hL', hkept⟩ := hL.invalidateRangeLoop start stop [] rfl (hL.isList (pageOf start))
    (hL.length_lt (pageOf start)).le
  have hshrinks := invalidateRangeLoop_shrinks ht
  refine ⟨t, ht, ⟨⟨L', hL'⟩, fun k hk => ?_⟩, hshrinks.tb, fun k => ?_⟩
  · exact (h.placed k (hshrinks.htable.subset hk)).congr (hshrinks.tb k).symm
  · rw [hkept, hpiece.page]
    refine and_congr_right fun hk => ?_
    have hplaced := h.placed k hk
    constructor
    · rintro hall ⟨a, hin, ha⟩
      have hon := hplaced.onPage ha
      rw [hpiece.pageOf_eq hin, ← hL.mem_page_iff hk] at hon
      obtain ⟨b, hb, rfl⟩ := List.mem_map.mp hon
      exact hall b hb rfl
        ((hplaced.overlaps_iff (Nat.mod_lt b (by decide)) (hL.node hb).2 hpiece).mpr ⟨a, hin, ha⟩)
    · rintro hnot b hb rfl hoverlaps
      exact hnot
        ((hplaced.overlaps_iff (Nat.mod_lt b (by decide)) (hL.node hb).2 hpiece).mp hoverlaps)

theorem Clears.trans {u : TbTables} {mid next : BitVec 64} (h : Clears s t start mid)
    (h' : Clears t u next stop)
    (hcut : ∀ a, InRange start stop a ↔ InRange start mid a ∨ InRange next stop a) :
    Clears s u start stop := by
  refine ⟨h'.sound, fun k => (h'.content k).trans (h.content k), fun k => ?_⟩
  have hmeets : (s.tb k).Meets start stop ↔ (s.tb k).Meets start mid ∨ (s.tb k).Meets next stop := by
    simp only [TbInfo.Meets, hcut, or_and_right, exists_or]
  rw [h'.htable, h.htable, TbInfo.Meets.congr (h.content k), hmeets, not_or, and_assoc]

theorem Sound.clears_nothing (h : s.Sound) (hstop : ¬ start < stop) : Clears s s start stop := by
  refine ⟨h, fun _ => rfl, fun k => (and_iff_left ?_).symm⟩
  rintro ⟨a, hin, -⟩
  exact hstop (Nat.lt_of_le_of_lt hin.1 hin.2)

/-- Below the last page the loop goes from page to page until the end of the range. -/
theorem Sound.clears_range (h : s.Sound) (hstop : stop.toNat ≤ 2 ^ 64 - 4096) {fuel : ℕ}
    (hfuel : stop.toNat ≤ (pageOf start).toNat + 4096 * fuel) :
    ∃ t, s.tbInvalidatePhysRange (fuel + 1) start stop = some t ∧ Clears s t start stop := by
  rw [pageOf_toNat] at hfuel
  induction fuel generalizing s start with
  | zero =>
    have hnot : ¬ start < stop := by
      rw [BitVec.lt_def]
      omega
    exact ⟨s, if_neg hnot, h.clears_nothing hnot⟩
  | succ fuel ih =>
    by_cases hlt : start < stop
    · have hlt' : start.toNat < stop.toNat := hlt
      obtain ⟨next, hnext⟩ : ∃ next, pageOf start + targetPageSize = next := ⟨_, rfl⟩
      have hnextNat : next.toNat = start.toNat / 4096 * 4096 + 4096 := by
        rw [← hnext, BitVec.toNat_add, pageOf_toNat]
        show (_ + 4096) % _ = _
        omega
      have hpiece : IsPiece (pageOf start) start (if next < stop then next else stop) := by
        refine ⟨rfl, ?_, ?_, by rw [pageOf_toNat]; omega⟩
        · split
          · rw [BitVec.lt_def, hnextNat]
            omega
          · exact hlt
        · rw [pageOf_toNat]
          split
          · rw [hnextNat]
          · rename_i hnot
            rw [BitVec.lt_def, hnextNat] at hnot
            exact not_lt.mp hnot
      obtain ⟨t, ht, hclears⟩ := h.clears_piece hpiece
      have halignedNat : next.toNat / 4096 * 4096 = next.toNat := by
        rw [hnextNat]
        omega
      have haligned : pageOf next = next := by
        apply BitVec.eq_of_toNat_eq
        rw [pageOf_toNat, halignedNat]
      have hfuel' : stop.toNat ≤ next.toNat / 4096 * 4096 + 4096 * fuel := by
        rw [halignedNat, hnextNat]
        exact hfuel.trans_eq (by ring)
      obtain ⟨u, hu, hclears'⟩ := ih hclears.sound hfuel'
      refine ⟨u, ?_, hclears.trans hclears' fun a => ?_⟩
      · rw [tbInvalidatePhysRange, invalidatePagesLoop, if_pos hlt, hnext, ht, Option.bind_some]
        rwa [tbInvalidatePhysRange, haligned] at hu
      · have hbehind : start.toNat < next.toNat := by omega
        clear hnextNat halignedNat hfuel hfuel'
        simp only [InRange, BitVec.le_def, BitVec.lt_def]
        split <;> omega
    · exact ⟨s, if_neg hlt, h.clears_nothing hlt⟩

/-- If the range reaches into the last page, the address behind that page is zero again. -/
theorem invalidatePagesLoop_last {next : BitVec 64} {fuel : ℕ} (hlt : start < stop)
    (hstop : 2 ^ 64 - 4096 < stop.toNat) (hnext : next.toNat % 4096 = 0) :
    invalidatePagesLoop stop fuel s start next = none := by
  induction fuel generalizing s start next with
  | zero => rfl
  | succ fuel ih =>
    rw [invalidatePagesLoop, if_pos hlt]
    have hlt' : next < stop := by
      have := next.isLt
      rw [BitVec.lt_def]
      omega
    refine Option.bind_eq_none_iff.mpr fun t _ => ih hlt' ?_
    rw [BitVec.toNat_add]
    show (_ + 4096) % 2 ^ 64 % 4096 = 0
    omega

/-- The invalidation of a range returns, with exactly the blocks gone that meet the range, if and only
if the range ends before the last page of the address space. -/
theorem tbInvalidatePhysRange_exact_iff (h : s.Sound) (hlt : start < stop) :
    (∃ fuel t, s.tbInvalidatePhysRange fuel start stop = some t ∧
        (∀ k ∈ t.htable, ¬ (t.tb k).Meets start stop) ∧
        ∀ k ∈ s.htable, ¬ (s.tb k).Meets start stop → k ∈ t.htable) ↔
      stop.toNat ≤ 2 ^ 64 - 4096 := by
  constructor
  · rintro ⟨fuel, t, ht, -⟩
    by_contra hstop
    have haligned : (pageOf start + targetPageSize).toNat % 4096 = 0 := by
      rw [BitVec.toNat_add, pageOf_toNat]
      show (_ + 4096) % 2 ^ 64 % 4096 = 0
      omega
    rw [tbInvalidatePhysRange, invalidatePagesLoop_last hlt (not_le.mp hstop) haligned] at ht
    cases ht
  · intro hstop
    obtain ⟨t, ht, hclears⟩ := h.clears_range hstop
      (show stop.toNat ≤ (pageOf start).toNat + 4096 * stop.toNat by omega)
    refine ⟨_, t, ht, fun k hk => ?_, fun k hk hnot => (hclears.htable k).mpr ⟨hk, hnot⟩⟩
    rw [TbInfo.Meets.congr (hclears.content k)]
    exact ((hclears.htable k).mp hk).2

/-- The block of a page, at an address in the middle of the range. -/
theorem tbInvalidatePhysRange_oneBlock :
    ∃ fuel t, (oneBlock 0x9).tables.tbInvalidatePhysRange fuel 0x10000000 0x10002000 = some t ∧
      (∀ k ∈ t.htable, ¬ (t.tb k).Meets 0x10000000 0x10002000) ∧
      ∀ k ∈ (oneBlock 0x9).tables.htable,
        ¬ ((oneBlock 0x9).tables.tb k).Meets 0x10000000 0x10002000 → k ∈ t.htable := by
  have hplaced : ∀ k ∈ (oneBlock 0x9).tables.htable, ((oneBlock 0x9).tables.tb k).Placed := by
    intro k hk
    obtain rfl : k = 0 := List.mem_singleton.mp hk
    exact ⟨by decide, by decide, rfl, rfl⟩
  exact (tbInvalidatePhysRange_exact_iff ⟨oneBlock_wellLinked 0x9, hplaced⟩ (by decide)).mpr
    (by decide)

theorem tbInvalidatePhysRange_lastPage :
    ¬ ∃ fuel t, (empty fun _ => 0).tbInvalidatePhysRange fuel (-4096) (-4094) = some t := by
  rintro ⟨fuel, t, ht⟩
  rw [tbInvalidatePhysRange, invalidatePagesLoop_last (by decide) (by decide) (by decide)] at ht
  cases ht

end TbTables

end Iqemu64
