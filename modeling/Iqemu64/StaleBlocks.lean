import Iqemu64.TargetMmap

/-!
# Blocks left over from a mapping

Setting the flags of a range of pages takes the blocks of those pages out of the hash table that were not
writable, if the new flags are. All other blocks stay, so whether code of an old mapping is left depends on
the protection before and after.
-/

namespace Iqemu64
open List MapState

def TbInfo.OnPage (tb : TbInfo) (p : BitVec 64) : Prop := tb.pageAddr0 = p ∨ tb.pageAddr1 = some p

theorem TbInfo.OnPage.congr {a b : TbInfo} {p : BitVec 64} (hab : a.content = b.content) :
    a.OnPage p ↔ b.OnPage p := by
  rw [TbInfo.content, TbInfo.content, TbInfo.mk.injEq] at hab
  rw [TbInfo.OnPage, TbInfo.OnPage, hab.2.2.2.1, hab.2.2.2.2.1]

/-! ### The pages of a range -/

theorem pageOf_pageOf (a : BitVec 64) : pageOf (pageOf a) = pageOf a := by
  apply BitVec.eq_of_toNat_eq
  rw [pageOf_toNat, pageOf_toNat]
  omega

theorem targetPageAlign_toNat {a : BitVec 64} (ha : a ≤ 0x1000000000000) :
    (targetPageAlign a).toNat = (a.toNat + 4095) / 4096 * 4096 := by
  have ha' : a.toNat ≤ 0x1000000000000 := ha
  have hadd : (a + 0xfff).toNat = a.toNat + 4095 := by
    rw [BitVec.toNat_add]
    exact Nat.mod_eq_of_lt (by show a.toNat + 4095 < 2 ^ 64; omega)
  rw [show targetPageAlign a = pageOf (a + 0xfff) from rfl, pageOf_toNat, hadd]

theorem targetPageAlign_targetPageAlign (a : BitVec 64) :
    targetPageAlign (targetPageAlign a) = targetPageAlign a := by
  have hunfold : ∀ x, targetPageAlign x = pageOf (x + 0xfff) := fun _ => rfl
  apply BitVec.eq_of_toNat_eq
  rw [hunfold, hunfold, pageOf_toNat, BitVec.toNat_add, pageOf_toNat]
  have := (a + 0xfff).isLt
  show (_ + 4095) % 2 ^ 64 / 4096 * 4096 = _
  omega

def InRange (start stop a : BitVec 64) : Prop := start ≤ a ∧ a < stop

section Pages
variable {start stop : BitVec 64}

theorem pagesBetween_toNat (hstop : stop ≤ 0x1000000000000) (h : start < stop) {p : BitVec 64} :
    p ∈ pagesBetween (pageOf start) (targetPageAlign stop) ↔
      ∃ i, p.toNat = start.toNat / 4096 * 4096 + 4096 * i ∧
        i < (stop.toNat + 4095) / 4096 - start.toNat / 4096 := by
  have hstop' : stop.toNat ≤ 0x1000000000000 := hstop
  have h' : start.toNat < stop.toNat := h
  have hcount : ((targetPageAlign stop).toNat - (pageOf start).toNat + 4095) / 4096 =
      (stop.toNat + 4095) / 4096 - start.toNat / 4096 := by
    rw [targetPageAlign_toNat hstop, pageOf_toNat]
    omega
  have hvalue : ∀ i, i < (stop.toNat + 4095) / 4096 - start.toNat / 4096 →
      (pageOf start + BitVec.ofNat 64 (4096 * i)).toNat = start.toNat / 4096 * 4096 + 4096 * i := by
    intro i hi
    rw [BitVec.toNat_add, pageOf_toNat, BitVec.toNat_ofNat]
    omega
  rw [pagesBetween, hcount, mem_map]
  constructor
  · rintro ⟨i, hi, rfl⟩
    rw [mem_range] at hi
    exact ⟨i, hvalue i hi, hi⟩
  · rintro ⟨i, hp, hi⟩
    exact ⟨i, mem_range.mpr hi, BitVec.eq_of_toNat_eq ((hvalue i hi).trans hp.symm)⟩

/-- The pages that are visited are those of the addresses of the range. -/
theorem mem_pagesBetween_iff (hstop : stop ≤ 0x1000000000000) (h : start < stop) {p : BitVec 64} :
    p ∈ pagesBetween (pageOf start) (targetPageAlign stop) ↔ ∃ a, InRange start stop a ∧ pageOf a = p := by
  have hstop' : stop.toNat ≤ 0x1000000000000 := hstop
  have h' : start.toNat < stop.toNat := h
  rw [pagesBetween_toNat hstop h]
  constructor
  · rintro ⟨i, hp, hi⟩
    -- the page itself, or `start` on the first page
    by_cases hle : start.toNat ≤ p.toNat
    · refine ⟨p, ⟨hle, ?_⟩, BitVec.eq_of_toNat_eq ?_⟩
      · show p.toNat < stop.toNat
        omega
      · rw [pageOf_toNat]
        omega
    · refine ⟨start, ⟨Nat.le_refl _, h⟩, BitVec.eq_of_toNat_eq ?_⟩
      rw [pageOf_toNat]
      omega
  · rintro ⟨a, ⟨hlo, hhi⟩, rfl⟩
    have hlo' : start.toNat ≤ a.toNat := hlo
    have hhi' : a.toNat < stop.toNat := hhi
    refine ⟨a.toNat / 4096 - start.toNat / 4096, ?_, ?_⟩
    · rw [pageOf_toNat]
      omega
    · omega

theorem nodup_pagesBetween (hstop : stop ≤ 0x1000000000000) (h : start < stop) :
    (pagesBetween (pageOf start) (targetPageAlign stop)).Nodup := by
  have hstop' : stop.toNat ≤ 0x1000000000000 := hstop
  have h' : start.toNat < stop.toNat := h
  refine List.Nodup.map_on (fun i hi j hj hij => ?_) nodup_range
  rw [mem_range, targetPageAlign_toNat hstop, pageOf_toNat] at hi hj
  have hij' := congrArg BitVec.toNat hij
  rw [BitVec.toNat_add, BitVec.toNat_add, pageOf_toNat, BitVec.toNat_ofNat, BitVec.toNat_ofNat] at hij'
  omega

end Pages

namespace TbTables

def WellLinked (s : TbTables) : Prop := ∃ L, s.Linked L

variable {s t u : TbTables} {L : BitVec 64 → List ℕ} {k : ℕ} {p : BitVec 64}

theorem Linked.mem_page_iff (h : Linked s L) (hk : k ∈ s.htable) :
    k ∈ (L p).map (· / 2) ↔ (s.tb k).OnPage p := by
  rw [mem_map]
  constructor
  · rintro ⟨a, ha, rfl⟩
    have hpage := (h.node ha).2
    rw [TbInfo.pageAddr] at hpage
    split at hpage
    · exact .inl (Option.some.inj hpage)
    · exact .inr hpage
  · rintro (h0 | h1)
    · exact ⟨2 * k + 0, h.live hk (by decide) (congrArg some h0), by omega⟩
    · exact ⟨2 * k + 1, h.live hk (by decide) h1, by omega⟩

/-! ### Setting flags -/

structure SetsFlags (P : BitVec 64 → Prop) (flags : BitVec 32) (s t : TbTables) : Prop where
  linked : WellLinked t
  flags_of : ∀ p, P p → t.flags p = flags
  flags_other : ∀ p, ¬ P p → t.flags p = s.flags p
  tb : ∀ k, (t.tb k).content = (s.tb k).content
  htable : ∀ k, k ∈ t.htable ↔ k ∈ s.htable ∧
    ¬ (flags.getLsbD 1 = true ∧ ∃ p, P p ∧ (s.flags p).getLsbD 1 = false ∧ (s.tb k).OnPage p)

theorem WellLinked.setPageFlags (h : WellLinked s) (flags : BitVec 32) {addr : BitVec 64}
    (haddr : pageOf addr = addr) :
    ∃ t, setPageFlags flags s addr = some t ∧ SetsFlags (· = addr) flags s t := by
  obtain ⟨L, hL⟩ := h
  rw [TbTables.setPageFlags]
  split
  · -- the blocks of the page are invalidated
    rename_i hcond
    obtain ⟨t, ht, hlinked, htable, hnext, hflags, htb⟩ := hL.tbInvalidatePhysPage addr
    rw [haddr] at htable
    rw [ht, Option.map_some]
    refine ⟨_, rfl, ⟨_, hlinked.of_same rfl rfl rfl (fun _ => ⟨rfl, rfl⟩) (List.Sublist.refl _)⟩, ?_, ?_,
      htb, fun k => ?_⟩
    · rintro p rfl
      exact Function.update_self _ _ _
    · intro p hp
      simp only [Function.update_of_ne hp, hflags]
    · simp only [htable, mem_filter, decide_eq_true_eq]
      refine and_congr_right fun hk => not_congr ?_
      rw [hL.mem_page_iff hk]
      constructor
      · exact fun hon => ⟨hcond.2.1, addr, rfl, Bool.eq_false_iff.mpr hcond.1, hon⟩
      · rintro ⟨-, p, rfl, -, hon⟩
        exact hon
  · rename_i hcond
    refine ⟨_, rfl, ⟨L, hL.of_same rfl rfl rfl (fun _ => ⟨rfl, rfl⟩) (List.Sublist.refl _)⟩, ?_, ?_,
      fun _ => rfl, fun k => ?_⟩
    · rintro p rfl
      exact Function.update_self _ _ _
    · intro p hp
      exact Function.update_of_ne hp _ _
    · refine ⟨fun hk => ⟨hk, ?_⟩, fun hk => hk.1⟩
      rintro ⟨hwrite, p, rfl, hflags, hon⟩
      -- a page with a block on it has a list
      refine hcond ⟨Bool.eq_false_iff.mp hflags, hwrite, ?_⟩
      obtain ⟨a, ha, -⟩ := mem_map.mp ((hL.mem_page_iff hk).mpr hon)
      have hlist := hL.isList p
      cases hfirst : s.firstTb p with
      | some b => rfl
      | none =>
        rw [hfirst] at hlist
        have hempty : L p = [] := hlist.unique rfl
        rw [hempty] at ha
        cases ha

theorem SetsFlags.cons {P : BitVec 64 → Prop} {flags : BitVec 32} {addr : BitVec 64}
    (h : SetsFlags (· = addr) flags s t) (h' : SetsFlags P flags t u) (haddr : ¬ P addr) :
    SetsFlags (fun p => p = addr ∨ P p) flags s u := by
  refine ⟨h'.linked, ?_, ?_, fun k => (h'.tb k).trans (h.tb k), fun k => ?_⟩
  · rintro p (rfl | hp)
    · rw [h'.flags_other p haddr]
      exact h.flags_of p rfl
    · exact h'.flags_of p hp
  · intro p hp
    rw [not_or] at hp
    rw [h'.flags_other p hp.2, h.flags_other p hp.1]
  · rw [h'.htable, h.htable, and_assoc, ← not_or, ← and_or_left]
    have hrest : (∃ p, P p ∧ (t.flags p).getLsbD 1 = false ∧ (t.tb k).OnPage p) ↔
        ∃ p, P p ∧ (s.flags p).getLsbD 1 = false ∧ (s.tb k).OnPage p := by
      refine exists_congr fun p => and_congr_right fun hp => ?_
      rw [h.flags_other p (fun heq => haddr (heq ▸ hp)), TbInfo.OnPage.congr (h.tb k)]
    rw [hrest, ← exists_or]
    simp only [or_and_right]

theorem WellLinked.setFlagsLoop (h : WellLinked s) (flags : BitVec 32) {ps : List (BitVec 64)}
    (hnodup : ps.Nodup) (haligned : ∀ p ∈ ps, pageOf p = p) :
    ∃ t, ps.foldlM (TbTables.setPageFlags flags) s = some t ∧ SetsFlags (· ∈ ps) flags s t := by
  induction ps generalizing s with
  | nil =>
    refine ⟨s, rfl, h, fun p hp => (nomatch hp), fun _ _ => rfl, fun _ => rfl, fun k => ?_⟩
    simp
  | cons p ps ih =>
    obtain ⟨hp, hnodup⟩ := nodup_cons.mp hnodup
    obtain ⟨t, ht, hset⟩ := h.setPageFlags flags (haligned p mem_cons_self)
    obtain ⟨u, hu, hset'⟩ := ih hset.linked hnodup fun q hq => haligned q (mem_cons_of_mem _ hq)
    refine ⟨u, ?_, ?_⟩
    · rw [foldlM_cons, ht]
      exact hu
    · simpa only [mem_cons] using hset.cons hset' hp

/-- `page_set_flags` sets the flags of the pages of the range. -/
theorem WellLinked.pageSetFlags (h : WellLinked s) {start stop : BitVec 64} {flags : BitVec 32}
    (ht : s.pageSetFlags start stop flags = some t) :
    start < stop ∧
      SetsFlags (fun p => ∃ a, InRange start stop a ∧ pageOf a = p) (PageMap.storedFlags flags) s t := by
  rw [TbTables.pageSetFlags] at ht
  split at ht
  · rename_i hrange
    obtain ⟨hlt, hstop⟩ := hrange
    have haligned : ∀ p ∈ pagesBetween (pageOf start) (targetPageAlign stop), pageOf p = p := by
      intro p hp
      obtain ⟨a, -, rfl⟩ := (mem_pagesBetween_iff hstop hlt).mp hp
      exact pageOf_pageOf a
    obtain ⟨u, hu, hset⟩ := h.setFlagsLoop (PageMap.storedFlags flags) (nodup_pagesBetween hstop hlt)
      haligned
    obtain rfl := Option.some.inj (ht.symm.trans hu)
    simp only [mem_pagesBetween_iff hstop hlt] at hset
    exact ⟨hlt, hset⟩
  · cases ht

end TbTables

theorem storedFlags_write (flags : BitVec 32) :
    (PageMap.storedFlags flags).getLsbD 1 = flags.getLsbD 1 := by
  rw [getLsbD_storedFlags, if_neg (by decide), if_neg (by decide), decide_eq_false (by decide),
    Bool.false_and, Bool.or_false]

/-! ### Calls -/

def TbInfo.Covers (tb : TbInfo) (a : BitVec 64) : Prop := (a - tb.pc).toNat < tb.size.toNat

theorem TbInfo.Covers.congr {a b : TbInfo} {x : BitVec 64} (hab : a.content = b.content) :
    a.Covers x ↔ b.Covers x := by
  rw [TbInfo.content, TbInfo.content, TbInfo.mk.injEq] at hab
  rw [TbInfo.Covers, TbInfo.Covers, hab.1, hab.2.1]

def TbTables.NoStale (s : TbTables) (start stop : BitVec 64) : Prop :=
  ∀ k ∈ s.htable, ∀ a, InRange start stop a → ¬ (s.tb k).Covers a

inductive MapCall where
  | mmap (start len : BitVec 64) (prot flags : BitVec 32) (offset : BitVec 64)
  | munmap (start len : BitVec 64)

namespace MapCall

def length : MapCall → BitVec 64
  | mmap _ len _ _ _ => targetPageAlign len
  | munmap _ len => targetPageAlign len

def run (H : MapHost) (s : MapState) : MapCall → Option (Option (BitVec 64) × MapState)
  | mmap start len prot flags offset =>
    (s.targetMmap H start len prot flags offset).map fun (ret, t) => (if ret = -1 then none else some ret, t)
  | munmap start len =>
    (s.targetMunmap H start len).map fun (ret, t) => (if ret = 0 then some start else none, t)

end MapCall

def MapState.BrkGrown (H : MapHost) (s : MapState) (p : BitVec 64) : Prop :=
  s.lastBrk ≠ 0 ∧ s.lastBrk < H.sbrk ∧ InRange (pageOf s.lastBrk) (targetPageAlign H.sbrk) p

def MapCall.MakesWritable (H : MapHost) (s : MapState) (p : BitVec 64) : MapCall → Prop
  | mmap start _ prot flags offset =>
    if flags &&& mapFixed = 0 then
      prot.getLsbD 1 = true ∧ ((s.tables.flags p).getLsbD 1 = false ∨
        start &&& H.pageMask ≠ 0 ∧ s.BrkGrown H p)
    else
      (prot.getLsbD 1 = true ∨ readsFile H start flags offset = true) ∧
        (s.tables.flags p).getLsbD 1 = false
  | munmap _ _ => False

namespace TbTables

variable {s t u : TbTables} {start stop : BitVec 64}

/-- What flags that are set for the range leave of old blocks. -/
theorem SetsFlags.noStale_iff {flags : BitVec 32}
    (h : SetsFlags (fun p => ∃ a, InRange start stop a ∧ pageOf a = p) flags s t) :
    t.NoStale start stop ↔ ∀ k ∈ s.htable, (∃ a, InRange start stop a ∧ (s.tb k).Covers a) →
      ∃ a, InRange start stop a ∧ (s.tb k).OnPage (pageOf a) ∧ flags.getLsbD 1 = true ∧
        (s.flags (pageOf a)).getLsbD 1 = false := by
  constructor
  · rintro hfresh k hk ⟨a, ha, hcovers⟩
    by_contra hnone
    refine hfresh k ((h.htable k).mpr ⟨hk, ?_⟩) a ha ((TbInfo.Covers.congr (h.tb k)).mpr hcovers)
    rintro ⟨hwrite, p, ⟨b, hb, rfl⟩, hflags, hon⟩
    exact hnone ⟨b, hb, hon, hwrite, hflags⟩
  · intro hdropped k hk a ha hcovers
    obtain ⟨hk, hkept⟩ := (h.htable k).mp hk
    obtain ⟨b, hb, hon, hwrite, hflags⟩ :=
      hdropped k hk ⟨a, ha, (TbInfo.Covers.congr (h.tb k)).mp hcovers⟩
    exact hkept ⟨hwrite, _, ⟨b, hb, rfl⟩, hflags, hon⟩

theorem SetsFlags.htable_of_readOnly {P : BitVec 64 → Prop} {flags : BitVec 32} (h : SetsFlags P flags s t)
    (hflags : flags.getLsbD 1 = false) (k : ℕ) : k ∈ t.htable ↔ k ∈ s.htable := by
  rw [h.htable, hflags]
  simp

theorem noStale_congr (htable : ∀ k, k ∈ t.htable ↔ k ∈ s.htable)
    (htb : ∀ k, (t.tb k).content = (s.tb k).content) : t.NoStale start stop ↔ s.NoStale start stop := by
  unfold NoStale
  simp only [htable, TbInfo.Covers.congr (htb _)]

end TbTables

namespace MapState

variable {H : MapHost} {s t : MapState} {start len offset a : BitVec 64} {prot flags : BitVec 32}

/-- A fixed mapping that succeeds has set the flags of its pages. -/
theorem mmapFixed_success (h : s.mmapFixed H start len prot flags offset = some (a, t)) (ha : a ≠ -1) :
    a = start ∧ s.tables.pageSetFlags start (start + len) (prot ||| pageValid) = some t.tables := by
  rw [mmapFixed] at h
  split at h
  · cases h
    exact absurd rfl ha
  · split at h
    · obtain ⟨u, hu, heq⟩ := Option.map_eq_some_iff.mp h
      cases heq
      exact ⟨rfl, hu⟩
    · cases h
      exact absurd rfl ha

/-- The search for a free range changes the tables only by marking what `brk` took. -/
theorem mmapFindVma_tables {size : BitVec 64} (h : s.mmapFindVma H start size = some (a, t)) :
    ∃ u, s.reserveBrk H = some u ∧ t.tables = u.tables := by
  simp only [mmapFindVma, Option.bind_eq_bind] at h
  obtain ⟨u, hu, h⟩ := Option.bind_eq_some_iff.mp h
  obtain ⟨found, -, h⟩ := Option.bind_eq_some_iff.mp h
  refine ⟨u, hu, ?_⟩
  split at h
  · cases h
    rfl
  · split at h
    · cases h
      rfl
    · cases h
      rfl

theorem reserveBrk_spec {u : MapState} (h : s.tables.WellLinked) (hu : s.reserveBrk H = some u) :
    u.tables.WellLinked ∧ (∀ k, k ∈ u.tables.htable ↔ k ∈ s.tables.htable) ∧
      (∀ k, (u.tables.tb k).content = (s.tables.tb k).content) ∧
      ∀ a, (u.tables.flags (pageOf a)).getLsbD 1 = false ↔
        (s.tables.flags (pageOf a)).getLsbD 1 = false ∨ s.BrkGrown H (pageOf a) := by
  rw [reserveBrk] at hu
  split at hu
  · rename_i hgrown
    obtain ⟨t, ht, rfl⟩ := Option.map_eq_some_iff.mp hu
    obtain ⟨-, hset⟩ := h.pageSetFlags ht
    have hreadOnly : (PageMap.storedFlags pageReserved).getLsbD 1 = false := by decide
    refine ⟨hset.linked, hset.htable_of_readOnly hreadOnly, hset.tb, fun a => ?_⟩
    by_cases hrange : InRange (pageOf s.lastBrk) (targetPageAlign H.sbrk) (pageOf a)
    · rw [show ({ s with tables := t, lastBrk := H.sbrk } : MapState).tables = t from rfl,
        hset.flags_of _ ⟨pageOf a, hrange, pageOf_pageOf a⟩, hreadOnly]
      exact ⟨fun _ => .inr ⟨hgrown.1, hgrown.2, hrange⟩, fun _ => rfl⟩
    · rw [show ({ s with tables := t, lastBrk := H.sbrk } : MapState).tables = t from rfl,
        hset.flags_other]
      · exact ⟨.inl, fun h => h.resolve_right fun hb => hrange hb.2.2⟩
      · rintro ⟨b, ⟨hlo, hhi⟩, hb⟩
        refine hrange (hb ▸ ⟨?_, ?_⟩)
        · have hlo' : (pageOf s.lastBrk).toNat ≤ b.toNat := hlo
          show (pageOf s.lastBrk).toNat ≤ (pageOf b).toNat
          rw [pageOf_toNat] at hlo' ⊢
          rw [pageOf_toNat]
          omega
        · have hhi' : b.toNat < (targetPageAlign H.sbrk).toNat := hhi
          show (pageOf b).toNat < (targetPageAlign H.sbrk).toNat
          rw [pageOf_toNat]
          omega
  · rename_i hgrown
    cases hu
    refine ⟨h, fun _ => Iff.rfl, fun _ => rfl, fun a => ⟨.inl, fun h => h.resolve_right fun hb => ?_⟩⟩
    exact hgrown ⟨hb.1, hb.2.1⟩

def Hinted (H : MapHost) (s u : MapState) (start : BitVec 64) : Prop :=
  if start &&& H.pageMask = 0 then u.tables = s.tables
  else ∃ v, s.reserveBrk H = some v ∧ u.tables = v.tables

theorem mmapAnywhere_success (h : s.mmapAnywhere H start len prot flags offset = some (a, t))
    (ha : a ≠ -1) :
    ∃ u, s.Hinted H u start ∧
      u.tables.pageSetFlags a (a + len) (prot ||| pageValid) = some t.tables := by
  obtain ⟨⟨mmapStart, u⟩, hu, h⟩ := Option.bind_eq_some_iff.mp h
  refine ⟨u, ?_, ?_⟩
  · rw [mmapHint] at hu
    rw [Hinted]
    by_cases hreal : start &&& H.pageMask = 0
    · simp only [hreal, ne_eq, not_true_eq_false, if_false] at hu
      cases hu
      rw [if_pos hreal]
    · simp only [hreal, ne_eq, not_false_eq_true, if_true] at hu
      rw [if_neg hreal]
      exact mmapFindVma_tables hu
  · simp only at h
    split at h
    · cases h
      exact absurd rfl ha
    · split at h
      · cases h
        exact absurd rfl ha
      · obtain ⟨v, hv, heq⟩ := Option.map_eq_some_iff.mp h
        cases heq
        exact hv

/-- For a file that is read the flags are set for writing, and then perhaps for reading only. -/
theorem mmapReadFile_success (h : s.mmapReadFile H start len prot flags = some (a, t)) (ha : a ≠ -1)
    (hlen : targetPageAlign len = len) (hstart : start &&& ~~~targetPageMask = 0)
    (hlinked : s.tables.WellLinked) :
    a = start ∧ ∃ u,
      s.tables.pageSetFlags start (start + len) (prot ||| protWrite ||| pageValid) = some u ∧
      (t.tables = u ∨ prot &&& protWrite = 0 ∧
        u.pageSetFlags start (start + len) (prot &&& 0x7 ||| pageValid) = some t.tables) := by
  rw [mmapReadFile] at h
  split at h
  · cases h
    exact absurd rfl ha
  obtain ⟨⟨retaddr, u⟩, hu, h⟩ := Option.bind_eq_some_iff.mp h
  simp only at h
  split at h
  · cases h
    exact absurd rfl ha
  rename_i hret
  obtain ⟨rfl, hset⟩ := mmapFixed_success hu hret
  obtain ⟨hrange, -⟩ := hlinked.pageSetFlags hset
  split at h
  · rename_i hprot
    obtain ⟨⟨ret, v⟩, hv, heq⟩ := Option.map_eq_some_iff.mp h
    cases heq
    -- its arguments are in order, so `target_mprotect` fails with `-1` or not at all
    rw [targetMprotect, if_neg (not_not.mpr hstart)] at hv
    simp only [hlen] at hv
    rw [if_neg (fun hlt : retaddr + len < retaddr => Nat.lt_asymm hrange hlt)] at hv
    split at hv
    · cases hv
      exact ⟨rfl, u.tables, hset, .inl rfl⟩
    split at hv
    · obtain ⟨w, hw, heq⟩ := Option.map_eq_some_iff.mp hv
      cases heq
      exact ⟨rfl, u.tables, hset, .inr ⟨hprot, hw⟩⟩
    · cases hv
      exact absurd rfl ha
  · cases h
    exact ⟨rfl, t.tables, hset, .inl rfl⟩

end MapState

/-! ### Stale blocks -/

section Calls
variable {H : MapHost} {s t : MapState} {start len offset a : BitVec 64} {prot flags : BitVec 32}

/-- Every block that covers an address of the range is on a page of the range that the call makes writable. -/
def Dropped (H : MapHost) (s : MapState) (c : MapCall) (start stop : BitVec 64) : Prop :=
  ∀ k ∈ s.tables.htable, (∃ a, InRange start stop a ∧ (s.tables.tb k).Covers a) →
    ∃ a, InRange start stop a ∧ (s.tables.tb k).OnPage (pageOf a) ∧ c.MakesWritable H s (pageOf a)

theorem munmap_noStale_iff (h : s.tables.WellLinked)
    (ht : s.targetMunmap H start len = some (0, t)) :
    t.tables.NoStale start (start + targetPageAlign len) ↔
      Dropped H s (.munmap start len) start (start + targetPageAlign len) := by
  have hset : s.tables.pageSetFlags start (start + targetPageAlign len) 0 = some t.tables := by
    rw [targetMunmap] at ht
    simp only at ht
    split at ht
    · cases ht
    split at ht
    · cases ht
    split at ht
    · cases ht
    · obtain ⟨u, hu, heq⟩ := Option.map_eq_some_iff.mp ht
      cases heq
      exact hu
  obtain ⟨-, hset⟩ := h.pageSetFlags hset
  rw [hset.noStale_iff, storedFlags_write]
  simp [Dropped, MapCall.MakesWritable]

theorem write_or_pageValid (prot : BitVec 32) : (prot ||| pageValid).getLsbD 1 = prot.getLsbD 1 := by
  rw [BitVec.getLsbD_or, show pageValid.getLsbD 1 = false from rfl, Bool.or_false]

/-- The tables in which a mapping anywhere sets the flags differ by what `brk` took. -/
theorem MapState.Hinted.spec {u : MapState} (h : s.Hinted H u start) (hlinked : s.tables.WellLinked) :
    u.tables.WellLinked ∧ (∀ k, k ∈ u.tables.htable ↔ k ∈ s.tables.htable) ∧
      (∀ k, (u.tables.tb k).content = (s.tables.tb k).content) ∧
      ∀ a, (u.tables.flags (pageOf a)).getLsbD 1 = false ↔
        (s.tables.flags (pageOf a)).getLsbD 1 = false ∨
          start &&& H.pageMask ≠ 0 ∧ s.BrkGrown H (pageOf a) := by
  rw [MapState.Hinted] at h
  split at h
  · rename_i hreal
    rw [h]
    refine ⟨hlinked, fun _ => Iff.rfl, fun _ => rfl, fun a => ?_⟩
    simp [hreal]
  · rename_i hreal
    obtain ⟨v, hv, h⟩ := h
    rw [h]
    obtain ⟨hlinked', htable, htb, hflags⟩ := reserveBrk_spec hlinked hv
    refine ⟨hlinked', htable, htb, fun a => ?_⟩
    rw [hflags]
    exact or_congr Iff.rfl ⟨fun hb => ⟨hreal, hb⟩, And.right⟩

theorem mmapAnywhere_noStale_iff (h : s.tables.WellLinked) (hfixed : flags &&& mapFixed = 0)
    {n : BitVec 64} (ht : s.mmapAnywhere H start n prot flags offset = some (a, t)) (ha : a ≠ -1) :
    t.tables.NoStale a (a + n) ↔ Dropped H s (.mmap start len prot flags offset) a (a + n) := by
  obtain ⟨u, hu, hset⟩ := mmapAnywhere_success ht ha
  obtain ⟨hlinked, htable, htb, hflags⟩ := hu.spec h
  obtain ⟨-, hset⟩ := hlinked.pageSetFlags hset
  rw [hset.noStale_iff, storedFlags_write, write_or_pageValid, Dropped]
  simp only [htable, TbInfo.Covers.congr (htb _), TbInfo.OnPage.congr (htb _), hflags,
    MapCall.MakesWritable, if_pos hfixed]

theorem mmapFixed_noStale_iff (h : s.tables.WellLinked) (hfixed : flags &&& mapFixed ≠ 0)
    (hreads : readsFile H start flags offset = false) {n : BitVec 64}
    (ht : s.mmapFixed H start n prot flags offset = some (a, t)) (ha : a ≠ -1) :
    t.tables.NoStale a (a + n) ↔ Dropped H s (.mmap start len prot flags offset) a (a + n) := by
  obtain ⟨rfl, hset⟩ := mmapFixed_success ht ha
  obtain ⟨-, hset⟩ := h.pageSetFlags hset
  rw [hset.noStale_iff, storedFlags_write, write_or_pageValid, Dropped]
  simp only [MapCall.MakesWritable, if_neg hfixed, hreads, Bool.false_eq_true, or_false]

theorem mmapReadFile_noStale_iff (h : s.tables.WellLinked) (hfixed : flags &&& mapFixed ≠ 0)
    (hreads : readsFile H start flags offset = true) {n : BitVec 64}
    (hn : targetPageAlign n = n) (hstart : start &&& ~~~targetPageMask = 0)
    (ht : s.mmapReadFile H start n prot flags = some (a, t)) (ha : a ≠ -1) :
    t.tables.NoStale a (a + n) ↔ Dropped H s (.mmap start len prot flags offset) a (a + n) := by
  obtain ⟨rfl, u, hset, hrest⟩ := mmapReadFile_success ht ha hn hstart h
  obtain ⟨-, hset⟩ := h.pageSetFlags hset
  -- a second setting of the flags is for reading only and drops nothing
  have hsame : t.tables.NoStale a (a + n) ↔ u.NoStale a (a + n) := by
    obtain hsame | ⟨hprot, hset'⟩ := hrest
    · rw [hsame]
    · obtain ⟨-, hset'⟩ := hset.linked.pageSetFlags hset'
      have hwrite : prot.getLsbD 1 = false := by
        by_contra hbit
        exact (and_twoPow_ne_zero_iff prot 1 (by decide)).mpr (Bool.not_eq_false _ ▸ hbit) hprot
      refine TbTables.noStale_congr (hset'.htable_of_readOnly ?_) hset'.tb
      rw [storedFlags_write, write_or_pageValid, BitVec.getLsbD_and, hwrite, Bool.false_and]
  have hwrite : (PageMap.storedFlags (prot ||| protWrite ||| pageValid)).getLsbD 1 = true := by
    rw [storedFlags_write, write_or_pageValid, BitVec.getLsbD_or, show protWrite.getLsbD 1 = true from rfl,
      Bool.or_true]
  rw [hsame, hset.noStale_iff, hwrite, Dropped]
  simp only [MapCall.MakesWritable, if_neg hfixed, hreads, or_true]

theorem mmap_noStale_iff (h : s.tables.WellLinked)
    (ht : s.targetMmap H start len prot flags offset = some (a, t)) (ha : a ≠ -1) :
    t.tables.NoStale a (a + targetPageAlign len) ↔
      Dropped H s (.mmap start len prot flags offset) a (a + targetPageAlign len) := by
  rw [targetMmap] at ht
  split at ht
  · cases ht
    exact absurd rfl ha
  split at ht
  · rename_i hlen
    have hempty : ∀ x, ¬ InRange a (a + targetPageAlign len) x := fun x hx => by
      rw [hlen, show a + 0 = a from BitVec.add_zero a] at hx
      exact Nat.lt_irrefl _ (Nat.lt_of_le_of_lt hx.1 hx.2)
    exact ⟨fun _ k _ ⟨x, hx, _⟩ => absurd hx (hempty x), fun _ k _ x hx => absurd hx (hempty x)⟩
  split at ht
  · rename_i hfixed
    exact mmapAnywhere_noStale_iff h hfixed ht ha
  rename_i hfixed
  split at ht
  · cases ht
    exact absurd rfl ha
  rename_i hstart
  split at ht
  · rename_i hreads
    exact mmapReadFile_noStale_iff h hfixed hreads (targetPageAlign_targetPageAlign len)
      (not_not.mp hstart) ht ha
  · rename_i hreads
    exact mmapFixed_noStale_iff h hfixed (Bool.eq_false_iff.mpr hreads) ht ha

end Calls

/-- After a call no stale block is left in its range just when the blocks that covered it were on pages of
the range that the call made writable. -/
theorem remap_noStale_iff (H : MapHost) (s t : MapState) (hs : s.tables.WellLinked) (c : MapCall)
    (start : BitVec 64) (hrun : c.run H s = some (some start, t)) :
    t.tables.NoStale start (start + c.length) ↔ Dropped H s c start (start + c.length) := by
  cases c with
  | mmap start' len prot flags offset =>
    obtain ⟨⟨ret, u⟩, hu, heq⟩ := Option.map_eq_some_iff.mp hrun
    simp only [Prod.mk.injEq] at heq
    obtain ⟨hret, rfl⟩ := heq
    split at hret
    · cases hret
    · rename_i hne
      cases hret
      exact mmap_noStale_iff hs hu hne
  | munmap start' len =>
    obtain ⟨⟨ret, u⟩, hu, heq⟩ := Option.map_eq_some_iff.mp hrun
    simp only [Prod.mk.injEq] at heq
    obtain ⟨hret, rfl⟩ := heq
    split at hret
    · rename_i hzero
      cases hret
      subst hzero
      exact munmap_noStale_iff hs hu
    · cases hret

def easyHost : MapHost where
  pageSize := 0x1000
  sbrk := 0
  mmap := fun addr _ _ _ _ => some addr
  mprotect := fun _ _ _ => true
  munmap := fun _ _ => true

def oneBlock (flags : BitVec 32) : MapState where
  tables := (((TbTables.empty fun _ => flags).addBlock (~~~0xfff) 0x10000010 8 0x20000).map Prod.snd).getD
    (.empty fun _ => 0)
  lastBrk := 0
  mmapNextStart := 0x40000000

theorem oneBlock_wellLinked (flags : BitVec 32) : (oneBlock flags).tables.WellLinked := by
  obtain ⟨r, t, L, ht, hL, -⟩ := (TbTables.Linked.empty fun _ => flags).addBlock (~~~0xfff)
    (show (0x10000010 : BitVec 64) ≠ -1 by decide) 8 0x20000
  have htables : (oneBlock flags).tables = t := by
    rw [oneBlock, ht]
    rfl
  exact ⟨L, htables ▸ hL⟩

/-- A writable mapping over the block of a page that can only be read. -/
theorem remap_noStale_iff_writable :
    ∃ t, (MapCall.mmap 0x10000000 0x1000 0x3 0x1012 0).run easyHost (oneBlock 0x9) =
        some (some 0x10000000, t) ∧
      (t.tables.NoStale 0x10000000 (0x10000000 + 0x1000) ↔
        Dropped easyHost (oneBlock 0x9) (.mmap 0x10000000 0x1000 0x3 0x1012 0) 0x10000000
          (0x10000000 + 0x1000)) := by
  obtain ⟨t, ht⟩ : ∃ t, (MapCall.mmap 0x10000000 0x1000 0x3 0x1012 0).run easyHost (oneBlock 0x9) =
      some (some 0x10000000, t) := ⟨_, rfl⟩
  exact ⟨t, ht, remap_noStale_iff easyHost _ t (oneBlock_wellLinked 0x9) _ 0x10000000 ht⟩

/-- The page of a block is unmapped, and then other code is mapped there. The block is in the hash table all
the time. -/
theorem remap_noStale_unmapped :
    ∃ t u, (MapCall.munmap 0x10000000 0x1000).run easyHost (oneBlock 0x28) = some (some 0x10000000, t) ∧
      ¬ t.tables.NoStale 0x10000000 (0x10000000 + 0x1000) ∧
      (MapCall.mmap 0x10000000 0x1000 0x5 0x1012 0).run easyHost t = some (some 0x10000000, u) ∧
      ¬ u.tables.NoStale 0x10000000 (0x10000000 + 0x1000) := by
  have hstale : ∀ t : MapState, 0 ∈ t.tables.htable → (t.tables.tb 0).pc = 0x10000010 →
      (t.tables.tb 0).size = 8 → ¬ t.tables.NoStale 0x10000000 (0x10000000 + 0x1000) := by
    intro t hk hpc hsize hfresh
    refine hfresh 0 hk 0x10000010 ⟨by decide, by decide⟩ ?_
    rw [TbInfo.Covers, hpc, hsize]
    decide
  refine ⟨_, _, rfl, hstale _ ?_ rfl rfl, rfl, hstale _ ?_ rfl rfl⟩
  · exact mem_cons_self
  · exact mem_cons_self

end Iqemu64
