import Mathlib.Data.List.Nodup
import Iqemu64.HeapList
import Iqemu64.Runs

/-!
# Chained jumps

A block has two slots for direct jumps. A slot that is chained to a block is patched to its code and linked
into the list of jumps that come in to it. The slot with index `n` of block `k` is the number `2 * k + n`,
as the tagged pointer. The low bit of `jmp_dest` closes a slot for good.
-/

namespace Iqemu64
open HeapList List Function

structure JmpDest where
  dest : Option ℕ
  closed : Bool
deriving DecidableEq

structure JumpChains where
  blocks : ℕ
  noCache : ℕ → Bool
  invalid : ℕ → Bool
  inHtable : ℕ → Bool
  jmpListHead : ℕ → Option ℕ
  jmpListNext : ℕ → Option ℕ
  jmpDest : ℕ → JmpDest
  /-- The block whose code the jump of a slot is patched to, or `none` for its own exit. -/
  jmpTarget : ℕ → Option ℕ

namespace JumpChains

def bound (s : JumpChains) : ℕ := 2 * s.blocks + 1

def tbAddJump (s : JumpChains) (k n tbNext : ℕ) : JumpChains :=
  let slot := 2 * k + n
  if s.invalid tbNext then s
  else if s.jmpDest slot ≠ ⟨none, false⟩ then s
  else
    { s with
      jmpDest := update s.jmpDest slot ⟨some tbNext, false⟩
      jmpTarget := update s.jmpTarget slot (some tbNext)
      jmpListNext := update s.jmpListNext slot (s.jmpListHead tbNext)
      jmpListHead := update s.jmpListHead tbNext (some slot) }

/-- `tb_remove_from_jmp_list`. `none` is `g_assert_not_reached`. -/
def tbRemoveFromJmpList (s : JumpChains) (slot : ℕ) : Option JumpChains :=
  let dest := (s.jmpDest slot).dest
  let s := { s with jmpDest := update s.jmpDest slot ⟨dest, true⟩ }
  match dest with
  | none => some s
  | some b => (unlink (fun a => a = slot) s.jmpListNext s.bound (s.jmpListHead b)).map fun (head, next) =>
    { s with jmpListHead := update s.jmpListHead b head, jmpListNext := next }

def resetSlot (s : JumpChains) (slot : ℕ) : JumpChains :=
  { s with
    jmpTarget := update s.jmpTarget slot none
    jmpDest := update s.jmpDest slot ⟨none, (s.jmpDest slot).closed⟩ }

def unlinkJumps : ℕ → JumpChains → Option ℕ → JumpChains
  | fuel + 1, s, some slot => unlinkJumps fuel (s.resetSlot slot) (s.jmpListNext slot)
  | _, s, _ => s

def tbJmpUnlink (s : JumpChains) (b : ℕ) : JumpChains :=
  let s := unlinkJumps s.bound s (s.jmpListHead b)
  { s with jmpListHead := update s.jmpListHead b none }

def doTbPhysInvalidate (s : JumpChains) (b : ℕ) : Option JumpChains :=
  let s := { s with invalid := update s.invalid b true }
  if ¬ s.noCache b ∧ ¬ s.inHtable b then some s
  else
    let s := { s with inHtable := update s.inHtable b false }
    (s.tbRemoveFromJmpList (2 * b)).bind fun s => (s.tbRemoveFromJmpList (2 * b + 1)).map fun s =>
      s.tbJmpUnlink b

def fresh (blocks : ℕ) (noCache : ℕ → Bool) : JumpChains where
  blocks := blocks
  noCache := noCache
  invalid := fun _ => false
  inHtable := fun k => !noCache k
  jmpListHead := fun _ => none
  jmpListNext := fun _ => none
  jmpDest := fun _ => ⟨none, false⟩
  jmpTarget := fun _ => none

end JumpChains

inductive JumpEvent where
  | addJump (k n tbNext : ℕ)
  | removeFromJmpList (k n : ℕ)
  | jmpUnlink (b : ℕ)
  | physInvalidate (b : ℕ)

def JumpEvent.Valid (blocks : ℕ) : JumpEvent → Prop
  | addJump k n tbNext => k < blocks ∧ n < 2 ∧ tbNext < blocks
  | removeFromJmpList k n => k < blocks ∧ n < 2
  | jmpUnlink b => b < blocks
  | physInvalidate b => b < blocks

namespace JumpChains

def Step (s : JumpChains) (e : JumpEvent) (t : JumpChains) : Prop :=
  e.Valid s.blocks ∧
    match e with
    | .addJump k n tbNext => t = s.tbAddJump k n tbNext
    | .removeFromJmpList k n => s.tbRemoveFromJmpList (2 * k + n) = some t
    | .jmpUnlink b => t = s.tbJmpUnlink b
    | .physInvalidate b => s.doTbPhysInvalidate b = some t

/-! ### The lists -/

structure Chained (s : JumpChains) (L : ℕ → List ℕ) : Prop where
  isList : ∀ b, IsList s.jmpListNext (s.jmpListHead b) (L b)
  mem_iff : ∀ a b, a ∈ L b ↔ s.jmpDest a = ⟨some b, false⟩
  slot_lt : ∀ {a b}, a ∈ L b → a < 2 * s.blocks
  target : ∀ {a b}, s.jmpTarget a = some b → (s.jmpDest a).closed = false → a ∈ L b

variable {s t : JumpChains} {L : ℕ → List ℕ} {k n b slot : ℕ}

theorem Chained.length_lt (h : Chained s L) (b : ℕ) : (L b).length < s.bound := by
  have hle := (h.isList b).length_le fun a ha => h.slot_lt ha
  unfold bound
  omega

theorem Chained.dest_unique (h : Chained s L) {b c : ℕ} (hb : slot ∈ L b) (hc : slot ∈ L c) : b = c := by
  have heq := ((h.mem_iff slot b).mp hb).symm.trans ((h.mem_iff slot c).mp hc)
  rw [JmpDest.mk.injEq] at heq
  exact Option.some.inj heq.1

def chain (s : JumpChains) (slot b : ℕ) : JumpChains :=
  { s with
    jmpDest := update s.jmpDest slot ⟨some b, false⟩
    jmpTarget := update s.jmpTarget slot (some b)
    jmpListNext := update s.jmpListNext slot (s.jmpListHead b)
    jmpListHead := update s.jmpListHead b (some slot) }

/-- A jump is added only from a free slot to a valid block. -/
theorem tbAddJump_cases (s : JumpChains) (k n b : ℕ) :
    s.tbAddJump k n b = s ∨ s.invalid b = false ∧ s.jmpDest (2 * k + n) = ⟨none, false⟩ ∧
      s.tbAddJump k n b = s.chain (2 * k + n) b := by
  rw [tbAddJump]
  by_cases hinvalid : s.invalid b = true
  · exact .inl (if_pos hinvalid)
  · by_cases hfree : s.jmpDest (2 * k + n) = ⟨none, false⟩
    · refine .inr ⟨Bool.eq_false_iff.mpr hinvalid, hfree, ?_⟩
      rw [if_neg hinvalid, if_neg (not_not.mpr hfree)]
      rfl
    · refine .inl ?_
      rw [if_neg hinvalid, if_pos hfree]

theorem Chained.chain (h : Chained s L) (hk : k < s.blocks) (hn : n < 2)
    (hfree : s.jmpDest (2 * k + n) = ⟨none, false⟩) :
    Chained (s.chain (2 * k + n) b) (update L b ((2 * k + n) :: L b)) := by
  have hnew : ∀ c, 2 * k + n ∉ L c := fun c hc => by
    have heq := ((h.mem_iff _ c).mp hc).symm.trans hfree
    rw [JmpDest.mk.injEq] at heq
    cases heq.1
  refine ⟨?_, ?_, ?_, ?_⟩
  · intro c
    by_cases hc : c = b
    · subst hc
      simp only [JumpChains.chain, update_self]
      exact (h.isList c).cons (hnew c)
    · simp only [JumpChains.chain, update_of_ne hc]
      exact (h.isList c).congr fun a ha =>
        update_of_ne (ne_of_mem_of_not_mem ha (hnew c)) _ _
  · intro a c
    by_cases ha : a = 2 * k + n
    · subst ha
      simp only [JumpChains.chain, update_self]
      by_cases hc : c = b
      · subst hc
        simp
      · simp [update_of_ne hc, hnew c, Ne.symm hc]
    · simp only [JumpChains.chain, update_of_ne ha]
      rw [← h.mem_iff]
      by_cases hc : c = b
      · subst hc
        simp [ha]
      · rw [update_of_ne hc]
  · intro a c ha
    rw [update_apply] at ha
    split at ha
    · obtain rfl | ha := mem_cons.mp ha
      · show 2 * k + n < 2 * s.blocks
        omega
      · exact h.slot_lt ha
    · exact h.slot_lt ha
  · intro a c htarget hopen
    by_cases ha : a = 2 * k + n
    · subst ha
      simp only [JumpChains.chain, update_self, Option.some.injEq] at htarget
      subst htarget
      rw [update_self]
      exact mem_cons_self
    · simp only [JumpChains.chain, update_of_ne ha] at htarget hopen
      have hmem := h.target htarget hopen
      rw [update_apply]
      split
      · rename_i hcb
        rw [← hcb]
        exact mem_cons_of_mem _ hmem
      · exact hmem

structure Closes (s t : JumpChains) (slot : ℕ) : Prop where
  blocks : t.blocks = s.blocks
  noCache : t.noCache = s.noCache
  invalid : t.invalid = s.invalid
  inHtable : t.inHtable = s.inHtable
  jmpDest : t.jmpDest = update s.jmpDest slot ⟨(s.jmpDest slot).dest, true⟩

theorem Closes.of_open (h : Closes s t slot) {a : ℕ} {dest : Option ℕ}
    (ha : t.jmpDest a = ⟨dest, false⟩) : s.jmpDest a = ⟨dest, false⟩ := by
  rw [h.jmpDest, update_apply] at ha
  split at ha
  · simp at ha
  · exact ha

theorem Closes.closed_self (h : Closes s t slot) : (t.jmpDest slot).closed = true := by
  rw [h.jmpDest, update_self]

theorem Closes.closed_mono (h : Closes s t slot) {a : ℕ} (ha : (s.jmpDest a).closed = true) :
    (t.jmpDest a).closed = true := by
  rw [h.jmpDest, update_apply]
  split
  · rfl
  · exact ha

def without (L : ℕ → List ℕ) (slot b : ℕ) : List ℕ := (L b).filter fun a => a ≠ slot

theorem without_eq (hslot : slot ∉ L b) : without L slot b = L b :=
  filter_eq_self.mpr fun _ ha => decide_eq_true (ne_of_mem_of_not_mem ha hslot)

/-- Lists without a closed slot are in order if their links are. -/
theorem Chained.without (h : Chained s L) (hcloses : Closes s t slot) (htarget : t.jmpTarget = s.jmpTarget)
    (hlist : ∀ b, IsList t.jmpListNext (t.jmpListHead b) (without L slot b)) :
    Chained t (without L slot) := by
  have hmem : ∀ {a b}, a ∈ JumpChains.without L slot b ↔ a ∈ L b ∧ a ≠ slot := by
    intro a b
    rw [JumpChains.without, mem_filter, decide_eq_true_eq]
  refine ⟨hlist, fun a b => ?_, fun ha => ?_, fun {a b} ha hopen => ?_⟩
  · rw [hmem, h.mem_iff, hcloses.jmpDest]
    by_cases ha : a = slot
    · subst ha
      simp
    · simp [ha]
  · rw [hcloses.blocks]
    exact h.slot_lt (hmem.mp ha).1
  · rw [htarget] at ha
    rw [hcloses.jmpDest] at hopen
    by_cases hslot : a = slot
    · subst hslot
      simp at hopen
    · rw [update_of_ne hslot] at hopen
      exact hmem.mpr ⟨h.target ha hopen, hslot⟩

/-- A slot that is closed comes off the list that it is on. -/
theorem Chained.tbRemoveFromJmpList (h : Chained s L) (ht : s.tbRemoveFromJmpList slot = some t) :
    Chained t (JumpChains.without L slot) ∧ Closes s t slot := by
  rw [JumpChains.tbRemoveFromJmpList] at ht
  cases hdest : (s.jmpDest slot).dest with
  | none =>
    simp only [hdest, Option.some.injEq] at ht
    have hnot : ∀ b, slot ∉ L b := fun b hb => by
      rw [(h.mem_iff slot b).mp hb] at hdest
      cases hdest
    have hcloses : Closes s t slot := by
      subst ht
      exact ⟨rfl, rfl, rfl, rfl, by rw [hdest]⟩
    refine ⟨h.without hcloses (by rw [← ht]) fun b => ?_, hcloses⟩
    rw [without_eq (hnot b), ← ht]
    exact h.isList b
  | some b =>
    simp only [hdest] at ht
    obtain ⟨⟨head, next⟩, hunlink, ht⟩ := Option.map_eq_some_iff.mp ht
    have hcloses : Closes s t slot := by
      subst ht
      exact ⟨rfl, rfl, rfl, rfl, by rw [hdest]⟩
    have hmem : slot ∈ L b := by
      by_contra hmem
      have hnone : unlink (fun a => decide (a = slot)) s.jmpListNext s.bound (s.jmpListHead b) = none :=
        unlink_none (h.isList b) fun a ha => decide_eq_false (ne_of_mem_of_not_mem ha hmem)
      exact absurd (hnone.symm.trans hunlink) (by simp)
    obtain ⟨front, back, hsplit⟩ := append_of_mem hmem
    have hlist := h.isList b
    have hnodup := hlist.nodup
    have hlength := h.length_lt b
    rw [hsplit] at hlist hnodup hlength
    have hfront : ∀ a ∈ front, a ≠ slot := fun a ha =>
      (nodup_append.mp hnodup).2.2 a ha _ mem_cons_self
    have hback : ∀ a ∈ back, a ≠ slot := fun a ha =>
      ne_of_mem_of_not_mem ha (nodup_cons.mp (nodup_append.mp hnodup).2.1).1
    have hshort : front.length < s.bound := by
      rw [length_append] at hlength
      omega
    obtain ⟨head', next', hunlink', hlist', hsame⟩ :
        ∃ head' next', unlink (fun a => decide (a = slot)) s.jmpListNext s.bound (s.jmpListHead b) =
            some (head', next') ∧
          IsList next' head' (front ++ back) ∧ ∀ x, x ∉ front → next' x = s.jmpListNext x :=
      unlink_spec hlist (fun a ha => decide_eq_false (hfront a ha)) (decide_eq_true rfl) hshort
    obtain ⟨rfl, rfl⟩ := Prod.mk.inj (Option.some.inj (hunlink.symm.trans hunlink'))
    refine ⟨h.without hcloses (by rw [← ht]) fun c => ?_, hcloses⟩
    by_cases hc : c = b
    · subst hc
      have hwithout : JumpChains.without L slot c = front ++ back := by
        rw [JumpChains.without, hsplit, filter_append, filter_cons_of_neg (by simp),
          filter_eq_self.mpr fun a ha => decide_eq_true (hfront a ha),
          filter_eq_self.mpr fun a ha => decide_eq_true (hback a ha)]
      rw [hwithout, ← ht]
      simp only [update_self]
      exact hlist'
    · -- the other lists share no slot with this one
      rw [without_eq fun hslot => hc (h.dest_unique hslot hmem), ← ht]
      simp only [update_of_ne hc]
      refine (h.isList c).congr fun a ha => hsame a fun hfa => hc ?_
      exact h.dest_unique ha (by rw [hsplit]; exact mem_append_left _ hfa)

def resetSlots (s : JumpChains) (slots : List ℕ) : JumpChains :=
  { s with
    jmpTarget := fun a => if a ∈ slots then none else s.jmpTarget a
    jmpDest := fun a => if a ∈ slots then ⟨none, (s.jmpDest a).closed⟩ else s.jmpDest a }

theorem unlinkJumps_eq {rest : List ℕ} {cur : Option ℕ} {fuel : ℕ} (h : IsList s.jmpListNext cur rest)
    (hfuel : rest.length ≤ fuel) : unlinkJumps fuel s cur = s.resetSlots rest := by
  induction rest generalizing s cur fuel with
  | nil =>
    obtain rfl : cur = none := h
    cases fuel <;> simp [unlinkJumps, resetSlots]
  | cons slot rest ih =>
    have hnodup := h.nodup
    obtain ⟨rfl, hrest⟩ := h
    obtain ⟨fuel, rfl⟩ : ∃ m, fuel = m + 1 := ⟨fuel - 1, by simp at hfuel; omega⟩
    have hslot := (nodup_cons.mp hnodup).1
    have hstep : unlinkJumps fuel (s.resetSlot slot) (s.jmpListNext slot) =
        (s.resetSlot slot).resetSlots rest := ih hrest (by simp at hfuel; omega)
    rw [unlinkJumps, hstep]
    simp only [resetSlots, resetSlot, JumpChains.mk.injEq, true_and]
    constructor
    · funext a
      by_cases ha : a = slot
      · subst ha
        simp [hslot]
      · simp [ha]
    · funext a
      by_cases ha : a = slot
      · subst ha
        simp [hslot]
      · simp [ha]

/-- No jump comes in to a block after its list is dropped. -/
theorem Chained.tbJmpUnlink (h : Chained s L) (b : ℕ) :
    Chained (s.tbJmpUnlink b) (update L b []) ∧
      s.tbJmpUnlink b = { s.resetSlots (L b) with jmpListHead := update s.jmpListHead b none } := by
  have heq : s.tbJmpUnlink b =
      { s.resetSlots (L b) with jmpListHead := update s.jmpListHead b none } := by
    rw [JumpChains.tbJmpUnlink, unlinkJumps_eq (h.isList b) (Nat.le_of_lt (h.length_lt b))]
    rfl
  refine ⟨?_, heq⟩
  rw [heq]
  refine ⟨fun c => ?_, fun a c => ?_, fun {a c} ha => ?_, fun {a c} ha hopen => ?_⟩
  · by_cases hc : c = b
    · subst hc
      simp only [update_self]
      rfl
    · simp only [update_of_ne hc]
      exact h.isList c
  · simp only [resetSlots]
    by_cases hab : a ∈ L b
    · rw [if_pos hab]
      have hnot : a ∉ update L b [] c := by
        by_cases hc : c = b
        · subst hc
          simp
        · rw [update_of_ne hc]
          exact fun hac => hc (h.dest_unique hac hab)
      simp [hnot]
    · rw [if_neg hab, ← h.mem_iff]
      by_cases hc : c = b
      · subst hc
        simp [hab]
      · rw [update_of_ne hc]
  · rw [update_apply] at ha
    split at ha
    · cases ha
    · exact h.slot_lt ha
  · simp only [resetSlots] at ha hopen
    by_cases hab : a ∈ L b
    · rw [if_pos hab] at ha
      cases ha
    · rw [if_neg hab] at ha hopen
      have hac := h.target ha hopen
      have hcb : c ≠ b := fun hcb => hab (hcb ▸ hac)
      rw [update_of_ne hcb]
      exact hac

/-! ### Invalid blocks -/

structure Sound (s : JumpChains) : Prop where
  chained : ∃ L, Chained s L
  live : ∀ {a b}, s.jmpDest a = ⟨some b, false⟩ → s.invalid b = false
  closed : ∀ {k n}, s.invalid k = true → n < 2 → (s.jmpDest (2 * k + n)).closed = true
  cached : ∀ {k}, s.invalid k = false → s.noCache k = true ∨ s.inHtable k = true

theorem Sound.tbAddJump (h : Sound s) (hk : k < s.blocks) (hn : n < 2) : Sound (s.tbAddJump k n b) := by
  obtain hsame | ⟨hvalid, hfree, hchain⟩ := tbAddJump_cases s k n b
  · rw [hsame]
    exact h
  rw [hchain]
  obtain ⟨L, hL⟩ := h.chained
  refine ⟨⟨_, hL.chain hk hn hfree⟩, fun {a c} hac => ?_, fun {j m} hj hm => ?_, h.cached⟩
  · by_cases ha : a = 2 * k + n
    · subst ha
      simp only [JumpChains.chain, update_self, JmpDest.mk.injEq, Option.some.injEq, and_true] at hac
      rw [← hac]
      exact hvalid
    · simp only [JumpChains.chain, update_of_ne ha] at hac
      exact h.live hac
  · have hclosed := h.closed hj hm
    -- the slot was open, so it is not one of an invalid block
    have hne : 2 * j + m ≠ 2 * k + n := fun heq => by
      rw [heq, hfree] at hclosed
      cases hclosed
    simp only [JumpChains.chain, update_of_ne hne]
    exact hclosed

theorem Closes.sound (h : Sound s) {L' : ℕ → List ℕ} (hL' : Chained t L') (hcloses : Closes s t slot) :
    Sound t := by
  refine ⟨⟨L', hL'⟩, fun {a b} hab => ?_, fun {j m} hj hm => ?_, fun {j} hj => ?_⟩
  · rw [hcloses.invalid]
    exact h.live (hcloses.of_open hab)
  · rw [hcloses.invalid] at hj
    exact hcloses.closed_mono (h.closed hj hm)
  · rw [hcloses.invalid] at hj
    rw [hcloses.noCache, hcloses.inHtable]
    exact h.cached hj

/-- Dropping the list of a block neither closes nor opens slots. -/
theorem Chained.closed_tbJmpUnlink (h : Chained s L) (b a : ℕ) :
    ((s.tbJmpUnlink b).jmpDest a).closed = (s.jmpDest a).closed := by
  rw [(h.tbJmpUnlink b).2]
  simp only [resetSlots]
  split
  · rfl
  · rfl

theorem Sound.tbJmpUnlink (h : Sound s) (b : ℕ) : Sound (s.tbJmpUnlink b) := by
  obtain ⟨L, hL⟩ := h.chained
  obtain ⟨hchained, heq⟩ := hL.tbJmpUnlink b
  refine ⟨⟨_, hchained⟩, fun {a c} hac => ?_, fun {j m} hj hm => ?_, ?_⟩
  · rw [heq] at hac ⊢
    simp only [resetSlots] at hac
    split at hac
    · simp at hac
    · exact h.live hac
  · rw [heq] at hj
    rw [hL.closed_tbJmpUnlink]
    exact h.closed hj hm
  · rw [heq]
    exact h.cached

/-- Invalidating a block closes its slots and drops the jumps that come in to it. -/
theorem Sound.doTbPhysInvalidate (h : Sound s) (ht : s.doTbPhysInvalidate b = some t) :
    Sound t ∧ t.invalid b = true ∧ ∀ c, s.invalid c = true → t.invalid c = true := by
  obtain ⟨L, hL⟩ := h.chained
  have hmono : ∀ c, s.invalid c = true → update s.invalid b true c = true := fun c hc => by
    rw [update_apply]
    split
    · rfl
    · exact hc
  rw [JumpChains.doTbPhysInvalidate] at ht
  simp only at ht
  split at ht
  · -- the block was invalid before
    rename_i hgone
    cases ht
    have hinvalid : s.invalid b = true := by
      by_contra hvalid
      obtain hcached | hcached := h.cached (Bool.eq_false_iff.mpr hvalid)
      · exact hgone.1 hcached
      · exact hgone.2 hcached
    have hsame : update s.invalid b true = s.invalid := by
      rw [← hinvalid]
      exact update_eq_self b s.invalid
    rw [hsame]
    exact ⟨h, hinvalid, fun _ hc => hc⟩
  · obtain ⟨u, hu, ht⟩ := Option.bind_eq_some_iff.mp ht
    obtain ⟨v, hv, rfl⟩ := Option.map_eq_some_iff.mp ht
    have hmarked : Chained { s with invalid := update s.invalid b true
                                    inHtable := update s.inHtable b false } L :=
      ⟨hL.isList, hL.mem_iff, hL.slot_lt, hL.target⟩
    obtain ⟨hu', hcloses⟩ := hmarked.tbRemoveFromJmpList hu
    obtain ⟨hv', hcloses'⟩ := hu'.tbRemoveFromJmpList hv
    obtain ⟨hchained, heq⟩ := hv'.tbJmpUnlink b
    have hinvalid : (v.tbJmpUnlink b).invalid = update s.invalid b true := by
      rw [heq]
      exact hcloses'.invalid.trans hcloses.invalid
    rw [hinvalid]
    refine ⟨⟨⟨_, hchained⟩, fun {a c} hac => ?_, fun {j m} hj hm => ?_, fun {j} hj => ?_⟩,
      update_self _ _ _, hmono⟩
    · -- an open slot is on the list of another block, and was before
      have hmem := (hchained.mem_iff a c).mpr hac
      have hcb : c ≠ b := by
        rintro rfl
        rw [update_self] at hmem
        cases hmem
      rw [update_of_ne hcb] at hmem
      rw [hinvalid, update_of_ne hcb]
      exact h.live (hcloses.of_open (hcloses'.of_open ((hv'.mem_iff a c).mp hmem)))
    · rw [hv'.closed_tbJmpUnlink]
      by_cases hjb : j = b
      · subst hjb
        obtain rfl | rfl : m = 0 ∨ m = 1 := by omega
        · exact hcloses'.closed_mono hcloses.closed_self
        · exact hcloses'.closed_self
      · rw [hinvalid, update_of_ne hjb] at hj
        exact hcloses'.closed_mono (hcloses.closed_mono (h.closed hj hm))
    · have hjb : j ≠ b := by
        rintro rfl
        rw [hinvalid, update_self] at hj
        cases hj
      rw [hinvalid, update_of_ne hjb] at hj
      have htable : (v.tbJmpUnlink b).inHtable j = s.inHtable j := by
        rw [heq]
        show v.inHtable j = s.inHtable j
        rw [hcloses'.inHtable, hcloses.inHtable]
        exact update_of_ne hjb _ _
      have hnoCache : (v.tbJmpUnlink b).noCache = s.noCache := by
        rw [heq]
        exact hcloses'.noCache.trans hcloses.noCache
      rw [htable, hnoCache]
      exact h.cached hj

/-! ### Runs -/

theorem Sound.fresh (blocks : ℕ) (noCache : ℕ → Bool) : Sound (.fresh blocks noCache) := by
  refine ⟨⟨fun _ => [], ?_, ?_, ?_, ?_⟩, ?_, ?_, ?_⟩
  · exact fun b => rfl
  · intro a b
    simp [JumpChains.fresh]
  · exact fun ha => (nomatch ha)
  · exact fun ha => (nomatch ha)
  · intro a b hab
    simp [JumpChains.fresh] at hab
  · exact fun hk => (nomatch hk)
  · intro k _
    simp only [JumpChains.fresh]
    cases noCache k <;> simp

theorem Sound.step {e : JumpEvent} (h : Sound s) (ht : Step s e t) :
    Sound t ∧ ∀ c, s.invalid c = true → t.invalid c = true := by
  obtain ⟨hvalid, ht⟩ := ht
  cases e with
  | addJump k n tbNext =>
    subst ht
    refine ⟨h.tbAddJump hvalid.1 hvalid.2.1, fun c hc => ?_⟩
    obtain hsame | ⟨-, -, hchain⟩ := tbAddJump_cases s k n tbNext
    · rw [hsame]
      exact hc
    · rw [hchain]
      exact hc
  | removeFromJmpList k n =>
    obtain ⟨L, hL⟩ := h.chained
    obtain ⟨hchained, hcloses⟩ := hL.tbRemoveFromJmpList ht
    refine ⟨hcloses.sound h hchained, fun c hc => ?_⟩
    rw [hcloses.invalid]
    exact hc
  | jmpUnlink b =>
    subst ht
    obtain ⟨L, hL⟩ := h.chained
    refine ⟨h.tbJmpUnlink b, fun c hc => ?_⟩
    rw [(hL.tbJmpUnlink b).2]
    exact hc
  | physInvalidate b =>
    obtain ⟨hsound, -, hmono⟩ := h.doTbPhysInvalidate ht
    exact ⟨hsound, hmono⟩

/-- A slot is on the list of its destination once if it is open, and on no list otherwise. Open slots lead to
valid blocks, and no jump can be added to or from an invalid block. -/
structure Consistent (s : JumpChains) : Prop where
  onList : ∀ b, ∃ as, IsList s.jmpListNext (s.jmpListHead b) as ∧
    ∀ a, as.count a = if s.jmpDest a = ⟨some b, false⟩ then 1 else 0
  destValid : ∀ a b, s.jmpDest a = ⟨some b, false⟩ → s.invalid b = false
  noJump : ∀ a b, s.invalid b = true → (s.jmpDest a).closed = false → s.jmpTarget a ≠ some b
  noAdd : ∀ b, s.invalid b = true → ∀ k n, n < 2 → s.tbAddJump k n b = s ∧ s.tbAddJump b n k = s

theorem Sound.consistent (h : Sound s) : Consistent s := by
  obtain ⟨L, hL⟩ := h.chained
  refine ⟨fun b => ⟨L b, hL.isList b, fun a => ?_⟩, fun a b hab => h.live hab, fun a b hb hopen htarget => ?_,
    fun b hb k n hn => ⟨?_, ?_⟩⟩
  · by_cases ha : a ∈ L b
    · rw [if_pos ((hL.mem_iff a b).mp ha), count_eq_one_of_mem (hL.isList b).nodup ha]
    · rw [if_neg fun heq => ha ((hL.mem_iff a b).mpr heq), count_eq_zero_of_not_mem ha]
  · have hvalid := h.live ((hL.mem_iff a b).mp (hL.target htarget hopen))
    exact absurd (hb.symm.trans hvalid) (by decide)
  · obtain hsame | ⟨hvalid, -⟩ := tbAddJump_cases s k n b
    · exact hsame
    · exact absurd (hb.symm.trans hvalid) (by decide)
  · obtain hsame | ⟨-, hfree, -⟩ := tbAddJump_cases s b n k
    · exact hsame
    · have hclosed := h.closed hb hn
      rw [hfree] at hclosed
      cases hclosed

end JumpChains

/-- Over every sequence of calls on new blocks the chains stay consistent, and an invalid block stays so. -/
theorem jumpChains_consistent (blocks : ℕ) (noCache : ℕ → Bool) (es : List JumpEvent) (s : JumpChains)
    (hs : Runs.Reaches JumpChains.Step (.fresh blocks noCache) es s) :
    s.Consistent ∧ ∀ es' t, Runs.Reaches JumpChains.Step s es' t →
      t.Consistent ∧ ∀ b, s.invalid b = true → t.invalid b = true := by
  have hsound : s.Sound :=
    hs.invariant (I := JumpChains.Sound) (fun s e t h ht => (h.step ht).1) (.fresh blocks noCache)
  refine ⟨hsound.consistent, fun es' t ht => ?_⟩
  have hlater : t.Sound ∧ ∀ b, s.invalid b = true → t.invalid b = true := by
    refine ht.invariant (I := fun t => t.Sound ∧ ∀ b, s.invalid b = true → t.invalid b = true)
      (fun u e v ⟨hu, hmono⟩ hv => ?_) ⟨hsound, fun _ hb => hb⟩
    obtain ⟨hv', hmono'⟩ := hu.step hv
    exact ⟨hv', fun b hb => hmono' b (hmono b hb)⟩
  exact ⟨hlater.1.consistent, hlater.2⟩

/-- Two slots of a block are chained, one of them to itself, and the block is invalidated. -/
theorem jumpChains_consistent_selfLoop :
    ∃ s, Runs.Reaches JumpChains.Step (.fresh 2 fun _ => false)
        [.addJump 0 0 0, .addJump 0 1 1, .addJump 1 0 0, .physInvalidate 0] s ∧
      s.Consistent ∧ ∀ es' t, Runs.Reaches JumpChains.Step s es' t →
        t.Consistent ∧ ∀ b, s.invalid b = true → t.invalid b = true := by
  obtain ⟨s, hs⟩ : ∃ s, Runs.Reaches JumpChains.Step (.fresh 2 fun _ => false)
      [.addJump 0 0 0, .addJump 0 1 1, .addJump 1 0 0, .physInvalidate 0] s := by
    refine ⟨_, .cons ⟨?_, rfl⟩ (.cons ⟨?_, rfl⟩ (.cons ⟨?_, rfl⟩ (.cons ⟨?_, rfl⟩ (.nil _))))⟩
    · exact ⟨by decide, by decide, by decide⟩
    · exact ⟨by decide, by decide, by decide⟩
    · exact ⟨by decide, by decide, by decide⟩
    · exact (by decide : 0 < 2)
  exact ⟨s, hs, jumpChains_consistent 2 _ _ s hs⟩

/-- A block with a jump to another one is invalidated. Its `jmp_dest` still has the pointer to the other block,
which is valid, but its slot is on no list. So its jump still leads there when the other block is invalidated
as well. -/
theorem jumpChains_consistent_leftover :
    ∃ s t, Runs.Reaches JumpChains.Step (.fresh 2 fun _ => false)
        [.addJump 0 0 1, .physInvalidate 0] s ∧
      (s.jmpDest 0).dest = some 1 ∧ s.invalid 1 = false ∧ s.jmpListHead 1 = none ∧
      JumpChains.Step s (.physInvalidate 1) t ∧ t.invalid 1 = true ∧ t.jmpTarget 0 = some 1 := by
  refine ⟨_, _, .cons ⟨?_, rfl⟩ (.cons ⟨?_, rfl⟩ (.nil _)), rfl, rfl, rfl, ⟨?_, rfl⟩, rfl, rfl⟩
  · exact ⟨by decide, by decide, by decide⟩
  · exact (by decide : 0 < 2)
  · exact (by decide : 1 < 2)

end Iqemu64
