import Iqemu64.StaleBlocks

/-!
# Registered handlers

A handler for a host address is registered as a block for that address whose code is the handler. The block is
in the same tables as all others, and a flush or an invalidation takes it out. When control reaches an
address without a block one is generated, whose code is a bridge to the host function.
-/

namespace Iqemu64
open List TbTables

/-- A call of `register_pc_with_handler`, with the size that the memory of the new block has. The assertion of
`tb_link_page` fails for `-1`. -/
structure Registration where
  pc : BitVec 64
  handler : BitVec 64
  size : BitVec 16
  pc_ne : pc ≠ -1

def Registration.info (r : Registration) : TbInfo :=
  ⟨r.pc, r.size, r.handler, pageOf r.pc, secondPage r.pc r.size, false⟩

namespace TbTables

def registerPcWithHandler (hostPageMask : BitVec 64) (s : TbTables) (r : Registration) : Option TbTables :=
  (s.addBlock hostPageMask r.pc r.size r.handler).map Prod.snd

def registerImportantFuncs (hostPageMask : BitVec 64) (s : TbTables) (rs : List Registration) :
    Option TbTables :=
  rs.foldlM (registerPcWithHandler hostPageMask) s

def tbFind (hostPageMask : BitVec 64) (s : TbTables) (pc : BitVec 64) (size : BitVec 16)
    (tcPtr : BitVec 64) : Option (BitVec 64 × TbTables) :=
  match s.tbHtableLookup pc with
  | some k => some ((s.tb k).tcPtr, s)
  | none => (s.addBlock hostPageMask pc size tcPtr).map fun (k, t) => ((t.tb k).tcPtr, t)

end TbTables

inductive ControlEvent where
  | reach (pc : BitVec 64) (size : BitVec 16) (tcPtr : BitVec 64)
  | table (e : TbEvent)

def ControlEvent.Step (hostPageMask : BitVec 64) (s : TbTables) (e : ControlEvent) (t : TbTables) : Prop :=
  match e with
  | .reach pc size tcPtr => ∃ code, s.tbFind hostPageMask pc size tcPtr = some (code, t)
  | .table e => s.step hostPageMask e = some t

def RunsHandler (hostPageMask : BitVec 64) (rs : List Registration) (s : TbTables) : ControlEvent → Prop
  | .reach pc size tcPtr => ∀ r ∈ rs, r.pc = pc →
    ∃ t, s.tbFind hostPageMask pc size tcPtr = some (r.handler, t)
  | .table _ => True

def TbEvent.Hits (s : TbTables) (k : ℕ) : TbEvent → Prop
  | .addBlock _ _ _ => False
  | .physInvalidate j _ => k = j
  | .invalidatePhysPage addr => (s.tb k).OnPage (pageOf addr)
  | .invalidatePhysPageRange start stop => ∃ n < 2, (s.tb k).pageAddr n = some (pageOf start) ∧
    TbTables.Overlaps start stop (s.tb k) n
  | .flush => True

def Registration.SamePages (r : Registration) (pc : BitVec 64) (size : BitVec 16) : Prop :=
  secondPage pc size = secondPage r.pc r.size

def Registration.Fits (r : Registration) : Prop := (TbEvent.addBlock r.pc r.size r.handler).SizeFits

/-- The event leaves the registered blocks in the tables and adds no others for their addresses. -/
def SparesHandlers (rs : List Registration) (s : TbTables) : ControlEvent → Prop
  | .reach pc size _ => ∀ r ∈ rs, r.pc = pc → r.Fits ∨ r.SamePages pc size
  | .table (.addBlock pc size _) => ∀ r ∈ rs, r.pc = pc → r.SamePages pc size
  | .table e => ∀ r ∈ rs, ∀ k ∈ s.htable, (s.tb k).pc = r.pc → ¬ e.Hits s k

namespace TbTables

theorem Linked.mem_of_not_hits {s t : TbTables} {L : BitVec 64 → List ℕ} {hostPageMask : BitVec 64}
    {e : TbEvent} {k : ℕ} (h : Linked s L) (ht : s.step hostPageMask e = some t) (hk : k ∈ s.htable)
    (hhits : ¬ e.Hits s k) (hadd : ∀ pc size tcPtr, e ≠ .addBlock pc size tcPtr) :
    k ∈ t.htable ∧ (t.tb k).content = (s.tb k).content := by
  cases e with
  | addBlock pc size tcPtr => exact absurd rfl (hadd pc size tcPtr)
  | physInvalidate j whole =>
    obtain ⟨u, hu, hinv, -⟩ := h.doTbPhysInvalidate j whole
    obtain rfl := Option.some.inj (ht.symm.trans hu)
    refine ⟨?_, hinv.tb k⟩
    rw [hinv.htable]
    exact (mem_erase_of_ne hhits).mpr hk
  | invalidatePhysPage addr =>
    obtain ⟨u, hu, -, htable, -, -, htb⟩ := h.tbInvalidatePhysPage addr
    obtain rfl := Option.some.inj (ht.symm.trans hu)
    refine ⟨?_, htb k⟩
    rw [htable, mem_filter, decide_eq_true_eq, h.mem_page_iff hk]
    exact ⟨hk, hhits⟩
  | invalidatePhysPageRange start stop =>
    obtain ⟨u, L', hu, -, hkept⟩ := h.invalidateRangeLoop start stop [] rfl (h.isList (pageOf start))
      (h.length_lt (pageOf start)).le
    obtain rfl := Option.some.inj (ht.symm.trans hu)
    refine ⟨(hkept k).mpr ⟨hk, fun a ha hak hoverlaps => hhits ?_⟩, (invalidateRangeLoop_shrinks hu).tb k⟩
    have hpage := (h.node ha).2
    rw [hak] at hpage
    exact ⟨a % 2, by omega, hpage, hoverlaps⟩
  | flush => exact absurd trivial hhits

end TbTables

def InForce (s : TbTables) (r : Registration) : Prop :=
  ∃ k ∈ s.htable, (s.tb k).content = r.info ∧ ∀ j ∈ s.htable, (s.tb j).pc = r.pc → j = k

section InForce
variable {s t : TbTables} {hostPageMask pc tcPtr : BitVec 64} {size : BitVec 16} {r : Registration}
  {rs : List Registration}

theorem InForce.of_same (h : InForce s r) (htable : t.htable = s.htable)
    (htb : ∀ j ∈ s.htable, t.tb j = s.tb j) : InForce t r := by
  obtain ⟨k, hk, hinfo, hunique⟩ := h
  refine ⟨k, htable ▸ hk, by rw [htb k hk]; exact hinfo, fun j hj hpc => ?_⟩
  rw [htable] at hj
  rw [htb j hj] at hpc
  exact hunique j hj hpc

/-- A new block for the address would be equal to the registered one. -/
theorem tbCmp_of_samePages {tb : TbInfo} (tcPtr : BitVec 64) (htb : tb.content = r.info) (hpc : r.pc = pc)
    (hpages : r.SamePages pc size) :
    tbCmp tb ⟨pc, size, tcPtr, pageOf pc, secondPage pc size, false⟩ = true := by
  rw [TbInfo.content, Registration.info, TbInfo.mk.injEq] at htb
  obtain ⟨hpc', -, -, h0, h1, -⟩ := htb
  rw [Registration.SamePages] at hpages
  subst hpc
  simp [tbCmp, hpc', h0, h1, hpages]

theorem InForce.addBlock {k : ℕ} (hlinked : s.WellLinked) (h : InForce s r)
    (hpages : r.pc = pc → r.SamePages pc size)
    (ht : s.addBlock hostPageMask pc size tcPtr = some (k, t)) :
    t.WellLinked ∧ InForce t r ∧ (r.pc = pc → (t.tb k).tcPtr = r.handler) := by
  obtain ⟨L, hL⟩ := hlinked
  by_cases hne : pc = -1
  · subst hne
    obtain ⟨u, hu, hlinked, htable, htb⟩ := hL.addBlock_oneShot hostPageMask size tcPtr
    obtain ⟨rfl, rfl⟩ := Prod.mk.inj (Option.some.inj (ht.symm.trans hu))
    exact ⟨⟨L, hlinked⟩, h.of_same htable htb, fun hpc => absurd hpc r.pc_ne⟩
  obtain ⟨k', u, L', hu, hL', hcases⟩ := hL.addBlock hostPageMask hne size tcPtr
  obtain ⟨rfl, rfl⟩ := Prod.mk.inj (Option.some.inj (ht.symm.trans hu))
  obtain ⟨j, hj, hinfo, hunique⟩ := h
  obtain ⟨rfl, htable, htb, hcmp⟩ | ⟨hk, htable, hcmp, htb⟩ := hcases
  · -- a new block has another address
    have hpc : r.pc ≠ pc := fun hpc => by
      have hequal := tbCmp_of_samePages tcPtr hinfo hpc (hpages hpc)
      exact absurd hequal (Bool.eq_false_iff.mp (hcmp j hj))
    have hold : ∀ i ∈ s.htable, t.tb i = s.tb i := fun i hi => by
      rw [htb]
      exact Function.update_of_ne (hL.allocated hi).ne _ _
    refine ⟨⟨L', hL'⟩, ⟨j, ?_, ?_, fun i hi hipc => ?_⟩, fun heq => absurd heq hpc⟩
    · rw [htable]
      exact mem_cons_of_mem _ hj
    · rw [hold j hj]
      exact hinfo
    · rw [htable] at hi
      obtain rfl | hi := mem_cons.mp hi
      · rw [htb, Function.update_self] at hipc
        exact absurd hipc.symm hpc
      · rw [hold i hi] at hipc
        exact hunique i hi hipc
  · refine ⟨⟨L', hL'⟩, InForce.of_same ⟨j, hj, hinfo, hunique⟩ htable htb, fun hpc => ?_⟩
    -- the block that was there is the registered one
    have hkpc : (s.tb k).pc = r.pc := by
      simp only [tbCmp, Bool.and_eq_true, decide_eq_true_eq] at hcmp
      rw [hcmp.1.1, hpc]
    have hkj := hunique k hk hkpc
    rw [htb k hk, hkj]
    rw [TbInfo.content, Registration.info, TbInfo.mk.injEq] at hinfo
    exact hinfo.2.2.1

/-- If the lookup does not find the registered block it would not fit. -/
theorem InForce.samePages (h : InForce s r) (hlookup : s.tbHtableLookup r.pc = none)
    (hfits : r.Fits ∨ r.SamePages r.pc size) : r.SamePages r.pc size := by
  obtain ⟨k, hk, hinfo, -⟩ := h
  refine hfits.resolve_left fun hfits => ?_
  have haccepted : Accepted (s.tb k) r.pc := (Accepted.of_sizeFits hfits).congr (hinfo.symm.trans rfl)
  obtain ⟨j, hj, -⟩ := haccepted.lookup hk
  exact absurd (hlookup.symm.trans hj) (by simp)

/-- What runs at the address of a registration that is in force. -/
theorem InForce.tbFind (hlinked : s.WellLinked) (h : InForce s r)
    (hfits : r.Fits ∨ r.SamePages r.pc size) :
    ∃ t, s.tbFind hostPageMask r.pc size tcPtr = some (r.handler, t) := by
  rw [TbTables.tbFind]
  obtain ⟨k, hk, hinfo, hunique⟩ := id h
  cases hlookup : s.tbHtableLookup r.pc with
  | some j =>
    refine ⟨s, ?_⟩
    rw [tbHtableLookup, if_neg r.pc_ne] at hlookup
    have haccepted := find?_some hlookup
    have hj := hunique j (mem_of_find?_eq_some hlookup) (Accepted.pc_eq ⟨r.pc_ne, haccepted⟩)
    rw [TbInfo.content, Registration.info, TbInfo.mk.injEq] at hinfo
    simp only [hj, hinfo.2.2.1]
  | none =>
    have hpages := h.samePages hlookup hfits
    obtain ⟨L, hL⟩ := hlinked
    obtain ⟨j, t, L', ht, -⟩ := hL.addBlock hostPageMask r.pc_ne size tcPtr
    obtain ⟨-, -, hcode⟩ := h.addBlock ⟨L, hL⟩ (fun _ => hpages) ht
    refine ⟨t, ?_⟩
    simp only [ht, Option.map_some, hcode rfl]

theorem InForce.table {e : TbEvent} (hlinked : s.WellLinked) (h : InForce s r)
    (hadd : ∀ pc size tcPtr, e ≠ .addBlock pc size tcPtr)
    (hspares : ∀ k ∈ s.htable, (s.tb k).pc = r.pc → ¬ e.Hits s k)
    (ht : s.step hostPageMask e = some t) : InForce t r := by
  obtain ⟨L, hL⟩ := hlinked
  obtain ⟨k, hk, hinfo, hunique⟩ := h
  have hkpc : (s.tb k).pc = r.pc := congrArg TbInfo.pc hinfo
  obtain ⟨hk', htb⟩ := hL.mem_of_not_hits ht hk (hspares k hk hkpc) hadd
  refine ⟨k, hk', htb.trans hinfo, fun j hj hpc => ?_⟩
  cases e with
  | addBlock pc size tcPtr => exact absurd rfl (hadd pc size tcPtr)
  | physInvalidate i whole =>
    have hshrinks := doTbPhysInvalidate_shrinks ht
    exact hunique j (hshrinks.htable.subset hj) ((congrArg TbInfo.pc (hshrinks.tb j)).symm.trans hpc)
  | invalidatePhysPage addr =>
    have hshrinks := tbInvalidatePhysPage_shrinks ht
    exact hunique j (hshrinks.htable.subset hj) ((congrArg TbInfo.pc (hshrinks.tb j)).symm.trans hpc)
  | invalidatePhysPageRange start stop =>
    have hshrinks := invalidateRangeLoop_shrinks ht
    exact hunique j (hshrinks.htable.subset hj) ((congrArg TbInfo.pc (hshrinks.tb j)).symm.trans hpc)
  | flush =>
    cases ht
    cases hj

end InForce

/-! ### The registrations at the start -/

structure AllInForce (rs : List Registration) (s : TbTables) : Prop where
  linked : s.WellLinked
  inForce : ∀ r ∈ rs, InForce s r

section Runs
variable {s t : TbTables} {hostPageMask : BitVec 64} {rs : List Registration}

theorem AllInForce.register {r : Registration} (h : AllInForce rs s)
    (honly : ∀ k ∈ s.htable, (s.tb k).pc ∈ rs.map (·.pc)) (hr : r.pc ∉ rs.map (·.pc))
    (ht : s.registerPcWithHandler hostPageMask r = some t) :
    AllInForce (rs ++ [r]) t ∧ ∀ k ∈ t.htable, (t.tb k).pc ∈ (rs ++ [r]).map (·.pc) := by
  obtain ⟨⟨k, u⟩, hu, rfl⟩ := Option.map_eq_some_iff.mp ht
  obtain ⟨L, hL⟩ := h.linked
  have hold : ∀ r' ∈ rs, InForce u r' := fun r' hr' =>
    ((h.inForce r' hr').addBlock h.linked
      (fun hpc => absurd (hpc ▸ mem_map_of_mem hr') hr) hu).2.1
  obtain ⟨k', v, L', hv, hL', hcases⟩ := hL.addBlock hostPageMask r.pc_ne r.size r.handler
  obtain ⟨rfl, rfl⟩ := Prod.mk.inj (Option.some.inj (hu.symm.trans hv))
  obtain ⟨rfl, htable, htb, -⟩ | ⟨hk, -, hcmp, -⟩ := hcases
  · have hother : ∀ j ∈ s.htable, u.tb j = s.tb j := fun j hj => by
      rw [htb]
      exact Function.update_of_ne (hL.allocated hj).ne _ _
    have hown : u.tb s.next = r.info := by
      rw [htb]
      exact Function.update_self _ _ _
    refine ⟨⟨⟨L', hL'⟩, fun r' hr' => ?_⟩, fun j hj => ?_⟩
    · obtain hr' | hr' := mem_append.mp hr'
      · exact hold r' hr'
      · obtain rfl := mem_singleton.mp hr'
        refine ⟨s.next, htable ▸ mem_cons_self, by rw [hown]; rfl, fun j hj hpc => ?_⟩
        obtain hj | hj := mem_cons.mp (htable ▸ hj)
        · exact hj
        · have hjpc := honly j hj
          rw [← hother j hj, hpc] at hjpc
          exact absurd hjpc hr
    · rw [map_append, mem_append]
      obtain rfl | hj := mem_cons.mp (htable ▸ hj)
      · refine .inr ?_
        rw [hown]
        exact mem_singleton.mpr rfl
      · rw [hother j hj]
        exact .inl (honly j hj)
  · -- no block for this address was there
    simp only [tbCmp, Bool.and_eq_true, decide_eq_true_eq] at hcmp
    have hkpc := honly k hk
    rw [hcmp.1.1] at hkpc
    exact absurd hkpc hr

theorem AllInForce.registerAll (done : List Registration) (h : AllInForce done s)
    (honly : ∀ k ∈ s.htable, (s.tb k).pc ∈ done.map (·.pc))
    (hdistinct : ((done ++ rs).map (·.pc)).Nodup)
    (ht : s.registerImportantFuncs hostPageMask rs = some t) : AllInForce (done ++ rs) t := by
  induction rs generalizing s done with
  | nil =>
    cases ht
    rw [append_nil]
    exact h
  | cons r rs ih =>
    rw [registerImportantFuncs, foldlM_cons] at ht
    obtain ⟨u, hu, ht⟩ := Option.bind_eq_some_iff.mp ht
    have hr : r.pc ∉ done.map (·.pc) := by
      rw [map_append, map_cons] at hdistinct
      exact fun hmem => (nodup_append.mp hdistinct).2.2 _ hmem _ mem_cons_self rfl
    obtain ⟨hforce, honly'⟩ := h.register honly hr hu
    have happend : done ++ r :: rs = (done ++ [r]) ++ rs := by simp
    rw [happend] at hdistinct ⊢
    exact ih (done ++ [r]) hforce honly' hdistinct ht

/-! ### Runs -/

theorem AllInForce.addBlock {pc tcPtr : BitVec 64} {size : BitVec 16} {k : ℕ} (h : AllInForce rs s)
    (hpages : ∀ r ∈ rs, r.pc = pc → r.SamePages pc size)
    (ht : s.addBlock hostPageMask pc size tcPtr = some (k, t)) : AllInForce rs t := by
  refine ⟨?_, fun r hr => ((h.inForce r hr).addBlock h.linked (hpages r hr) ht).2.1⟩
  obtain ⟨L, hL⟩ := h.linked
  obtain ⟨u, L', hu, hL'⟩ := hL.step hostPageMask (.addBlock pc size tcPtr)
  rw [step, ht] at hu
  cases hu
  exact ⟨L', hL'⟩

theorem AllInForce.table {e : TbEvent} (h : AllInForce rs s)
    (hadd : ∀ pc size tcPtr, e ≠ .addBlock pc size tcPtr)
    (hspares : ∀ r ∈ rs, ∀ k ∈ s.htable, (s.tb k).pc = r.pc → ¬ e.Hits s k)
    (ht : s.step hostPageMask e = some t) : AllInForce rs t := by
  refine ⟨?_, fun r hr => (h.inForce r hr).table h.linked hadd (hspares r hr) ht⟩
  obtain ⟨L, hL⟩ := h.linked
  obtain ⟨u, L', hu, hL'⟩ := hL.step hostPageMask e
  obtain rfl := Option.some.inj (ht.symm.trans hu)
  exact ⟨L', hL'⟩

theorem AllInForce.step {e : ControlEvent} (h : AllInForce rs s) (hspares : SparesHandlers rs s e)
    (ht : e.Step hostPageMask s t) : AllInForce rs t := by
  cases e with
  | reach pc size tcPtr =>
    obtain ⟨code, ht⟩ := ht
    rw [tbFind] at ht
    cases hlookup : s.tbHtableLookup pc with
    | some k =>
      simp only [hlookup, Option.some.injEq, Prod.mk.injEq] at ht
      exact ht.2 ▸ h
    | none =>
      simp only [hlookup] at ht
      obtain ⟨⟨k, u⟩, hu, heq⟩ := Option.map_eq_some_iff.mp ht
      obtain ⟨-, rfl⟩ := Prod.mk.inj heq
      refine h.addBlock (fun r hr hpc => ?_) hu
      subst hpc
      exact (h.inForce r hr).samePages hlookup (hspares r hr rfl)
  | table e =>
    cases e with
    | addBlock pc size tcPtr =>
      obtain ⟨⟨k, u⟩, hu, rfl⟩ := Option.map_eq_some_iff.mp ht
      exact h.addBlock hspares hu
    | physInvalidate k whole => exact h.table (by simp) hspares ht
    | invalidatePhysPage addr => exact h.table (by simp) hspares ht
    | invalidatePhysPageRange start stop => exact h.table (by simp) hspares ht
    | flush => exact h.table (by simp) hspares ht

/-- In every run whose steps spare the handlers, control that reaches a registered address runs its
handler. -/
theorem handlers_inForce (hostPageMask : BitVec 64) (flags : BitVec 64 → BitVec 32)
    (rs : List Registration) (hdistinct : (rs.map (·.pc)).Nodup) (s : TbTables)
    (hs : (empty flags).registerImportantFuncs hostPageMask rs = some s) (es : List ControlEvent)
    (hspares : Runs.Along (fun s e t => ControlEvent.Step hostPageMask s e t) (SparesHandlers rs) s es) :
    Runs.Along (fun s e t => ControlEvent.Step hostPageMask s e t) (RunsHandler hostPageMask rs) s es := by
  have hstart : AllInForce rs s := by
    refine AllInForce.registerAll [] ⟨⟨_, TbTables.Linked.empty flags⟩, ?_⟩ ?_ hdistinct hs
    · exact fun r hr => (nomatch hr)
    · exact fun k hk => (nomatch hk)
  refine (hspares.invariant (I := AllInForce rs) (fun s e t hI hP ht => hI.step hP ht) hstart).mono ?_
  rintro s e ⟨hI, hP⟩
  cases e with
  | reach pc size tcPtr =>
    rintro r hr rfl
    exact (hI.inForce r hr).tbFind hI.linked (hP r hr rfl)
  | table e => trivial

end Runs

def freshRegistration : Registration := ⟨0x7fff20000010, 0x30000, 0, by decide⟩

/-- Guest code is translated, then the registered function is called. -/
theorem handlers_inForce_called :
    ∃ s, (empty fun _ => 0).registerImportantFuncs (~~~0xfff) [freshRegistration] = some s ∧
      Runs.Along (fun s e t => ControlEvent.Step (~~~0xfff) s e t)
        (RunsHandler (~~~0xfff) [freshRegistration]) s
        [.reach 0x10000000 8 0x40000, .reach 0x7fff20000010 0 0x50000] := by
  obtain ⟨s, hs⟩ : ∃ s,
      (empty fun _ => 0).registerImportantFuncs (~~~0xfff) [freshRegistration] = some s := ⟨_, rfl⟩
  refine ⟨s, hs, handlers_inForce _ _ [freshRegistration] (nodup_singleton _) s hs _ ?_⟩
  refine ⟨fun r hr hpc => ?_, fun t _ => ⟨fun r hr _ => ?_, fun _ _ => trivial⟩⟩
  · obtain rfl := mem_singleton.mp hr
    exact absurd hpc (by decide)
  · obtain rfl := mem_singleton.mp hr
    exact .inl ⟨by decide, .inl (by decide)⟩

/-- After a flush the block for the registered address is a bridge to the function. -/
theorem handlers_inForce_flushed :
    ∃ s, (empty fun _ => 0).registerImportantFuncs (~~~0xfff) [freshRegistration] = some s ∧
      ¬ Runs.Along (fun s e t => ControlEvent.Step (~~~0xfff) s e t)
        (RunsHandler (~~~0xfff) [freshRegistration]) s
        [.table .flush, .reach 0x7fff20000010 0 0x50000] := by
  obtain ⟨s, hs, hcode⟩ : ∃ s,
      (empty fun _ => 0).registerImportantFuncs (~~~0xfff) [freshRegistration] = some s ∧
      (s.tbFlush.tbFind (~~~0xfff) 0x7fff20000010 0 0x50000).map Prod.fst = some 0x50000 := ⟨_, rfl, rfl⟩
  refine ⟨s, hs, fun h => ?_⟩
  obtain ⟨hruns, -⟩ := h.2 _ rfl
  obtain ⟨t, ht⟩ := hruns freshRegistration mem_cons_self rfl
  rw [ht] at hcode
  exact absurd (show freshRegistration.handler = 0x50000 from Option.some.inj hcode) (by decide)

end Iqemu64
