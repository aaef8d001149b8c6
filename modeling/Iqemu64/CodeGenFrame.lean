import Iqemu64.CodeGen
import Iqemu64.HeapList
import Iqemu64.Runs

/-!
# What an emission changes

The emitters write upwards from `code_ptr`. The only other writes are the patches of the pool list,
so all that matters is which labels can be reached from its head: `PoolIn` says that the reachable
cells have their labels in an interval. With an empty list at the start the interval is the unit
itself. That the loops over the list end needs more, namely that the links form a list.
-/

namespace Iqemu64
open ByteMemory HeapList List Option Function TcgContext

theorem le_roundUp (n : ℕ) {d : ℕ} (hd : 0 < d) : n ≤ roundUp n d := by
  have h := Nat.div_add_mod (n + d - 1) d
  have hlt := Nat.mod_lt (n + d - 1) hd
  rw [roundUp, Nat.mul_comm]
  omega

theorem roundUp_lt (n : ℕ) {d : ℕ} (hd : 0 < d) : roundUp n d < n + d := by
  have h := Nat.div_mul_le_self (n + d - 1) d
  rw [roundUp]
  omega

namespace TcgContext

variable {s t : TcgContext}

/-! ### Stores -/

@[simp]
theorem store_pool (s : TcgContext) (a : ℕ) (bs : List UInt8) : (s.store a bs).pool = s.pool := by
  rw [store]; split <;> rfl

@[simp]
theorem store_poolLabels (s : TcgContext) (a : ℕ) (bs : List UInt8) :
    (s.store a bs).poolLabels = s.poolLabels := by
  rw [store]; split <;> rfl

@[simp]
theorem store_poolCur (s : TcgContext) (a : ℕ) (bs : List UInt8) :
    (s.store a bs).poolCur = s.poolCur := by
  rw [store]; split <;> rfl

@[simp]
theorem store_codePtr (s : TcgContext) (a : ℕ) (bs : List UInt8) :
    (s.store a bs).codePtr = s.codePtr := by
  rw [store]; split <;> rfl

@[simp]
theorem store_codeGenPtr (s : TcgContext) (a : ℕ) (bs : List UInt8) :
    (s.store a bs).codeGenPtr = s.codeGenPtr := by
  rw [store]; split <;> rfl

@[simp]
theorem store_codeGenHighwater (s : TcgContext) (a : ℕ) (bs : List UInt8) :
    (s.store a bs).codeGenHighwater = s.codeGenHighwater := by
  rw [store]; split <;> rfl

theorem store_emitted (s : TcgContext) (a : ℕ) (bs : List UInt8) :
    (s.store a bs).emitted ≤ max s.emitted (a + bs.length) := by
  rw [store]
  split
  · exact le_max_left _ _
  · exact le_rfl

theorem le_store_emitted (s : TcgContext) (a : ℕ) (bs : List UInt8) (hbs : 0 < bs.length) :
    a + bs.length ≤ (s.store a bs).emitted := by
  rw [store, if_neg (by simpa [List.isEmpty_iff] using List.length_pos_iff.mp hbs)]
  exact le_max_right _ _

theorem store_outside (s : TcgContext) (a : ℕ) (bs : List UInt8) {x : ℕ}
    (hx : x < a ∨ a + bs.length ≤ x) : (s.store a bs).mem x = s.mem x := by
  rw [store]
  split
  · rfl
  · exact Mem.write_outside s.mem a _ (fun k => bs.getD k 0) x hx

theorem store_inside (s : TcgContext) (a : ℕ) (bs : List UInt8) {k : ℕ} (hk : k < bs.length) :
    (s.store a bs).mem (a + k) = bs.getD k 0 := by
  have hne : bs.isEmpty = false := by
    cases bs with
    | nil => simp at hk
    | cons b bs => rfl
  rw [store, hne]
  exact Mem.write_inside s.mem a _ (fun k => bs.getD k 0) k hk

/-! ### Emission upwards from `code_ptr` -/

structure Grown (s t : TcgContext) : Prop where
  le : s.codePtr ≤ t.codePtr
  mem : ∀ x, x < s.codePtr ∨ t.codePtr ≤ x → t.mem x = s.mem x
  emitted : t.emitted ≤ max s.emitted t.codePtr
  codeGenPtr : t.codeGenPtr = s.codeGenPtr
  highwater : t.codeGenHighwater = s.codeGenHighwater

theorem Grown.refl (s : TcgContext) : Grown s s :=
  ⟨le_rfl, fun _ _ => rfl, le_max_left _ _, rfl, rfl⟩

theorem Grown.trans {u : TcgContext} (h : Grown s t) (h' : Grown t u) : Grown s u := by
  refine ⟨h.le.trans h'.le, fun x hx => ?_, ?_, h'.codeGenPtr.trans h.codeGenPtr,
    h'.highwater.trans h.highwater⟩
  · have hle := h.le
    have hle' := h'.le
    rw [h'.mem x (by omega), h.mem x (by omega)]
  · have he := h.emitted
    have he' := h'.emitted
    have hle' := h'.le
    omega

theorem grown_tcgOut (s : TcgContext) (bs : List UInt8) : Grown s (s.tcgOut bs) := by
  refine ⟨Nat.le_add_right _ _, fun x hx => ?_, ?_, ?_, ?_⟩
  · exact store_outside s _ _ hx
  · exact store_emitted s _ _
  · exact store_codeGenPtr s _ _
  · exact store_codeGenHighwater s _ _

/-! ### The cells that the pool list reaches -/

structure PoolIn (A : Set ℕ) (lo hi : ℕ) (s : TcgContext) : Prop where
  head : ∀ a, s.poolLabels = some a → a ∈ A
  next : ∀ a ∈ A, ∀ b, (s.pool a).next = some b → b ∈ A
  label : ∀ a ∈ A, lo ≤ (s.pool a).label ∧ (s.pool a).label + 4 ≤ hi

theorem poolIn_of_none (h : s.poolLabels = none) (lo hi : ℕ) : PoolIn ∅ lo hi s :=
  ⟨fun _ ha => (nomatch h.symm.trans ha), fun _ ha => ha.elim, fun _ ha => ha.elim⟩

variable {A : Set ℕ} {lo hi : ℕ}

theorem PoolIn.mono (h : PoolIn A lo hi s) {hi' : ℕ} (hle : hi ≤ hi') : PoolIn A lo hi' s :=
  ⟨h.head, h.next, fun a ha => ⟨(h.label a ha).1, (h.label a ha).2.trans hle⟩⟩

theorem PoolIn.congr (h : PoolIn A lo hi s) (hhead : t.poolLabels = s.poolLabels)
    (hpool : t.pool = s.pool) : PoolIn A lo hi t :=
  ⟨hhead ▸ h.head, hpool ▸ h.next, hpool ▸ h.label⟩

theorem poolPosition_mem {pool : ℕ → PoolLabel} {d : BitVec 64}
    (hnext : ∀ a ∈ A, ∀ b, (pool a).next = some b → b ∈ A) {fuel : ℕ} {prev p q r : Option ℕ}
    (hprev : ∀ a, prev = some a → a ∈ A) (hp : ∀ a, p = some a → a ∈ A)
    (h : poolPosition pool d fuel prev p = some (q, r)) :
    (∀ a, q = some a → a ∈ A) ∧ ∀ a, r = some a → a ∈ A := by
  induction fuel generalizing prev p with
  | zero => cases h
  | succ fuel ih =>
    cases p with
    | none =>
      cases h
      exact ⟨hprev, hp⟩
    | some i =>
      rw [poolPosition] at h
      split at h
      · cases h
        exact ⟨hprev, hp⟩
      · exact ih (fun a ha => hp a ha) (hnext i (hp i rfl)) h

theorem poolIn_newPoolAlloc (h : PoolIn A lo hi s) (d : BitVec 64) {label : ℕ}
    (hlo : lo ≤ label) (hhi : label + 4 ≤ hi) : PoolIn A lo hi (s.newPoolAlloc d label) := by
  refine ⟨h.head, fun a ha b hb => ?_, fun a ha => ?_⟩
  · by_cases hcur : a = s.poolCur
    · subst hcur
      exact h.next _ ha b (by simpa [newPoolAlloc] using hb)
    · exact h.next a ha b (by simpa [newPoolAlloc, hcur] using hb)
  · by_cases hcur : a = s.poolCur
    · subst hcur
      simpa [newPoolAlloc] using And.intro hlo hhi
    · simpa [newPoolAlloc, hcur] using h.label a ha

theorem poolIn_linkAfter (h : PoolIn A lo hi s) {n : ℕ} {prev next : Option ℕ}
    (hlabel : lo ≤ (s.pool n).label ∧ (s.pool n).label + 4 ≤ hi)
    (hprev : ∀ a, prev = some a → a ∈ A) (hnext : ∀ a, next = some a → a ∈ A) :
    PoolIn (insert n A) lo hi (s.linkAfter n prev next) := by
  have hlabel' : ∀ a ∈ insert n A, lo ≤ (s.pool a).label ∧ (s.pool a).label + 4 ≤ hi := by
    intro a ha
    rcases ha with rfl | ha
    · exact hlabel
    · exact h.label a ha
  have hcell : ∀ a ∈ insert n A, ∀ b,
      (update s.pool n { s.pool n with next := next } a).next = some b →
        b ∈ insert n A := by
    intro a ha b hb
    by_cases han : a = n
    · subst han
      rw [update_self] at hb
      exact .inr (hnext b hb)
    · rw [update_of_ne han] at hb
      exact .inr (h.next a (ha.resolve_left han) b hb)
  have hsame : ∀ a, (update s.pool n { s.pool n with next := next } a).label =
      (s.pool a).label := by
    intro a
    by_cases han : a = n
    · subst han
      rw [update_self]
    · rw [update_of_ne han]
  cases prev with
  | none =>
    refine ⟨fun a ha => .inl (Option.some.inj ha).symm, hcell, fun a ha => ?_⟩
    simp only [linkAfter]
    rw [hsame]
    exact hlabel' a ha
  | some q =>
    refine ⟨fun a ha => .inr (h.head a ha), fun a ha b hb => ?_, fun a ha => ?_⟩
    · by_cases haq : a = q
      · subst haq
        simp only [linkAfter, update_self, Option.some.injEq] at hb
        exact .inl hb.symm
      · simp only [linkAfter, update_of_ne haq] at hb
        exact hcell a ha b hb
    · by_cases haq : a = q
      · subst haq
        simp only [linkAfter, update_self]
        rw [hsame]
        exact hlabel' a ha
      · simp only [linkAfter, update_of_ne haq]
        rw [hsame]
        exact hlabel' a ha

theorem grown_linkAfter (s : TcgContext) (n : ℕ) (prev next : Option ℕ) :
    Grown s (s.linkAfter n prev next) := by
  cases prev <;> exact ⟨le_rfl, fun _ _ => rfl, le_max_left _ _, rfl, rfl⟩

@[simp]
theorem linkAfter_codePtr (s : TcgContext) (n : ℕ) (prev next : Option ℕ) :
    (s.linkAfter n prev next).codePtr = s.codePtr := by
  cases prev <;> rfl

/-- A reference to a pool word changes the list and nothing else. -/
theorem newPoolLabel_spec {fuel label : ℕ} {d : BitVec 64} (h : PoolIn A lo hi s)
    (hlo : lo ≤ label) (hhi : label + 4 ≤ hi) (ht : s.newPoolLabel fuel d label = some t) :
    (∃ B, PoolIn B lo hi t) ∧ Grown s t ∧ t.codePtr = s.codePtr := by
  obtain ⟨⟨q, r⟩, hpos, rfl⟩ := map_eq_some_iff.mp ht
  have halloc := poolIn_newPoolAlloc h d hlo hhi
  obtain ⟨hq, hr⟩ := poolPosition_mem halloc.next (by simp) halloc.head hpos
  refine ⟨⟨_, poolIn_linkAfter halloc ?_ hq hr⟩, ?_, linkAfter_codePtr _ _ _ _⟩
  · simpa [newPoolAlloc] using And.intro hlo hhi
  · have hgrown : Grown s (s.newPoolAlloc d label) :=
      ⟨le_rfl, fun _ _ => rfl, le_max_left _ _, rfl, rfl⟩
    exact hgrown.trans (grown_linkAfter _ _ _ _)

end TcgContext

/-! ### The operations of a unit -/

namespace TcgContext

variable {s t : TcgContext} {A : Set ℕ} {lo hi : ℕ}

structure Emitted (lo hi n : ℕ) (s t : TcgContext) : Prop where
  poolIn : ∃ B, PoolIn B lo (max hi t.codePtr) t
  grown : Grown s t
  size : t.codePtr ≤ s.codePtr + n

theorem emitted_tcgOut (h : PoolIn A lo hi s) {bs : List UInt8} {n : ℕ} (hn : bs.length ≤ n) :
    Emitted lo hi n s (s.tcgOut bs) := by
  refine ⟨⟨A, (h.mono (le_max_left _ _)).congr ?_ ?_⟩, grown_tcgOut s bs, ?_⟩
  · exact store_poolLabels s _ _
  · exact store_pool s _ _
  · exact Nat.add_le_add_left hn _

theorem length_moviBytes (p : ℕ) (r : Fin 8) (arg : BitVec 64) :
    (moviBytes p r arg).length ≤ 10 := by
  simp only [moviBytes]
  split
  · simp
  split
  · simp
  split
  · simp
  split <;> simp

variable {fuel : ℕ}

theorem emitOp_spec {op : EmitOp} (h : PoolIn A lo hi s) (hlo : lo ≤ s.codePtr)
    (ht : s.emitOp fuel op = some t) : Emitted lo hi op.size s t := by
  cases op with
  | bytes bs =>
    cases ht
    exact emitted_tcgOut h le_rfl
  | movi r arg =>
    cases ht
    exact emitted_tcgOut h (length_moviBytes _ _ _)
  | malloc size =>
    cases ht
    exact ⟨⟨A, (h.mono (le_max_left _ _)).congr rfl rfl⟩,
      ⟨le_rfl, fun _ _ => rfl, le_max_left _ _, rfl, rfl⟩, le_rfl⟩
  | pooled bs d =>
    have hgrown := grown_tcgOut s (bs ++ [0, 0, 0, 0])
    have hptr : (s.tcgOut (bs ++ [0, 0, 0, 0])).codePtr = s.codePtr + bs.length + 4 := by
      simp [tcgOut, Nat.add_assoc]
    have hpool : PoolIn A lo (max hi (s.codePtr + bs.length + 4))
        (s.tcgOut (bs ++ [0, 0, 0, 0])) :=
      (h.mono (le_max_left _ _)).congr (store_poolLabels s _ _) (store_pool s _ _)
    obtain ⟨⟨B, hB⟩, hlabel, hsame⟩ := newPoolLabel_spec hpool (by omega) (by omega) ht
    rw [hptr] at hsame
    refine ⟨⟨B, hsame ▸ hB⟩, hgrown.trans hlabel, ?_⟩
    rw [hsame, EmitOp.size]
    omega
  | branch call dest =>
    simp only [emitOp, tcgOutBranch] at ht
    split at ht
    · cases ht
      exact emitted_tcgOut h (by simp [EmitOp.size])
    · obtain ⟨u, hu, rfl⟩ := map_eq_some_iff.mp ht
      have hgrown := grown_tcgOut s [0xff, if call then 0x15 else 0x25]
      have hpool : PoolIn A lo (max hi (s.codePtr + 6))
          (s.tcgOut [0xff, if call then 0x15 else 0x25]) :=
        (h.mono (le_max_left _ _)).congr (store_poolLabels s _ _) (store_pool s _ _)
      have hptr : (s.tcgOut [0xff, if call then 0x15 else 0x25]).codePtr = s.codePtr + 2 := rfl
      obtain ⟨⟨B, hB⟩, hlabel, hsame⟩ := newPoolLabel_spec hpool (by omega) (by omega) hu
      have hend : (u.tcgOut [0, 0, 0, 0]).codePtr = s.codePtr + 6 := by
        simp [tcgOut, hsame]
      refine ⟨⟨B, ?_⟩, (hgrown.trans hlabel).trans (grown_tcgOut u _), ?_⟩
      · rw [hend]
        exact hB.congr (store_poolLabels u _ _) (store_pool u _ _)
      · rw [hend, EmitOp.size]

variable {ops : List EmitOp}

theorem emitOps_spec (h : PoolIn A lo hi s) (hlo : lo ≤ s.codePtr)
    (ht : s.emitOps fuel ops = some t) : Emitted lo hi (EmitOp.total ops) s t := by
  induction ops generalizing s A hi with
  | nil =>
    cases ht
    exact ⟨⟨A, h.mono (le_max_left _ _)⟩, Grown.refl _, le_rfl⟩
  | cons op ops ih =>
    obtain ⟨u, hu, ht⟩ := bind_eq_some_iff.mp ht
    obtain ⟨⟨B, hB⟩, hgrown, hsize⟩ := emitOp_spec h hlo hu
    obtain ⟨⟨C, hC⟩, hgrown', hsize'⟩ := ih hB (hlo.trans hgrown.le) ht
    refine ⟨⟨C, hC.mono ?_⟩, hgrown.trans hgrown', ?_⟩
    · have := hgrown'.le
      omega
    · rw [EmitOp.total_cons]
      omega

/-! ### The pool words -/

structure Finished (lo hi a c b : ℕ) (s t : TcgContext) : Prop where
  le : a ≤ b
  mem : ∀ x, x < lo ∨ hi ≤ x → x < a ∨ b ≤ x → t.mem x = s.mem x
  emitted : t.emitted ≤ max s.emitted (max hi b)
  bound : b ≤ max c (s.codeGenHighwater + 8)
  codeGenPtr : t.codeGenPtr = s.codeGenPtr
  highwater : t.codeGenHighwater = s.codeGenHighwater

variable {a : ℕ}

theorem outPoolWord_spec (lo hi : ℕ) {l : Option (BitVec 64)} {a' : ℕ} {d : BitVec 64}
    (hroom : ¬ (l ≠ some d ∧ s.codeGenHighwater < a)) (h : s.outPoolWord l a d = (t, a')) :
    Finished lo hi a a a' s t ∧ t.pool = s.pool ∧ t.poolLabels = s.poolLabels ∧
      t.codePtr = s.codePtr ∧ a' ≤ a + 8 := by
  rw [outPoolWord] at h
  split at h
  · cases h
    exact ⟨⟨le_rfl, fun _ _ _ => rfl, le_max_left _ _, le_max_left _ _, rfl, rfl⟩, rfl, rfl, rfl,
      by omega⟩
  · rename_i hl
    cases h
    have ha : a ≤ s.codeGenHighwater := by
      by_contra hlt
      exact hroom ⟨hl, by omega⟩
    have hlen : a + (leBytes 8 d.toNat).length = a + 8 := by rw [length_leBytes]
    refine ⟨⟨by omega, fun x _ hx => ?_, ?_, by omega, store_codeGenPtr _ _ _,
      store_codeGenHighwater _ _ _⟩, store_pool _ _ _, store_poolLabels _ _ _, store_codePtr _ _ _,
      le_rfl⟩
    · exact store_outside s a _ (by omega)
    · have := store_emitted s a (leBytes 8 d.toNat)
      omega

variable {p : Option ℕ}

/-- The loop over the list patches labels of the cells in `A` and writes words from `a` on. -/
theorem outPoolWords_spec {l : Option (BitVec 64)}
    {r : GenResult} (h : PoolIn A lo hi s) (hp : ∀ x, p = some x → x ∈ A)
    (ht : s.outPoolWords fuel p l a = some (r, t)) :
    ∃ b, Finished lo hi a a b s t ∧ (r = .ok → t.codePtr = b) ∧ PoolIn A lo hi t := by
  induction fuel generalizing s p l a with
  | zero => cases ht
  | succ fuel ih =>
    cases p with
    | none =>
      cases ht
      exact ⟨a, ⟨le_rfl, fun _ _ _ => rfl, le_max_left _ _, le_max_left _ _, rfl, rfl⟩,
        fun _ => rfl, h.congr rfl rfl⟩
    | some p =>
      have hlabel := h.label p (hp p rfl)
      simp only [outPoolWords] at ht
      split at ht
      · cases ht
        exact ⟨a, ⟨le_rfl, fun _ _ _ => rfl, le_max_left _ _, le_max_left _ _, rfl, rfl⟩,
          fun hr => (nomatch hr), h⟩
      · rename_i hroom
        obtain ⟨u, a', hword⟩ : ∃ u a', s.outPoolWord l a (s.pool p).data = (u, a') :=
          ⟨_, _, rfl⟩
        obtain ⟨hfin, hpool, hhead, hptr, -⟩ := outPoolWord_spec lo hi hroom hword
        simp only [hword] at ht
        split at ht
        · have hu : PoolIn A lo hi (u.store (s.pool p).label
              (leBytes 4 (BitVec.ofInt 32 ((a' : ℤ) - 8 - 4 - (s.pool p).label)).toNat)) :=
            h.congr (by simp [hhead]) (by simp [hpool])
          obtain ⟨b, hrest, hend, hin⟩ := ih hu (h.next p (hp p rfl)) ht
          refine ⟨b, ⟨hfin.le.trans hrest.le, fun x hx hx' => ?_, ?_, ?_, ?_, ?_⟩, hend, hin⟩
          · have := hfin.le
            have := hrest.le
            rw [hrest.mem x hx (by omega), store_outside, hfin.mem x hx (by omega)]
            rw [length_leBytes]
            omega
          · have he := store_emitted u (s.pool p).label
              (leBytes 4 (BitVec.ofInt 32 ((a' : ℤ) - 8 - 4 - (s.pool p).label)).toNat)
            rw [length_leBytes] at he
            have := hrest.emitted
            have := hfin.emitted
            have := hrest.le
            omega
          · have hb := hrest.bound
            rw [store_codeGenHighwater, hfin.highwater] at hb
            have := hfin.bound
            omega
          · rw [hrest.codeGenPtr, store_codeGenPtr, hfin.codeGenPtr]
          · rw [hrest.highwater, store_codeGenHighwater, hfin.highwater]
        · cases ht
          exact ⟨a', hfin, fun hr => (nomatch hr), h.congr hhead hpool⟩

theorem tcgOutPoolFinalize_spec {r : GenResult} (h : PoolIn A lo hi s)
    (ht : s.tcgOutPoolFinalize fuel = some (r, t)) :
    ∃ b, Finished lo hi s.codePtr (s.codePtr + 7) b s t ∧ (r = .ok → t.codePtr = b) ∧
      PoolIn A lo hi t := by
  rw [tcgOutPoolFinalize] at ht
  split at ht
  · cases ht
    exact ⟨s.codePtr, ⟨le_rfl, fun _ _ _ => rfl, le_max_left _ _, by omega, rfl, rfl⟩,
      fun _ => rfl, h⟩
  · rename_i p hp
    have hle := le_roundUp s.codePtr (d := 8) (by omega)
    have hlt := roundUp_lt s.codePtr (d := 8) (by omega)
    generalize roundUp s.codePtr 8 = a at hle hlt ht
    have hfill : s.codePtr + (replicate (a - s.codePtr) (0x90 : UInt8)).length = a := by
      rw [length_replicate]
      omega
    have hs : PoolIn A lo hi (s.store s.codePtr (replicate (a - s.codePtr) 0x90)) :=
      h.congr (store_poolLabels s _ _) (store_pool s _ _)
    obtain ⟨b, hfin, hend, hin⟩ := outPoolWords_spec hs
      (fun x hx => h.head x (hx ▸ hp)) ht
    refine ⟨b, ⟨hle.trans hfin.le, fun x hx hx' => ?_, ?_, ?_, ?_, ?_⟩, hend, hin⟩
    · have := hfin.le
      rw [hfin.mem x hx (by omega), store_outside s _ _ (by omega)]
    · have := store_emitted s s.codePtr (replicate (a - s.codePtr) 0x90)
      have := hfin.emitted
      have := hfin.le
      omega
    · have := hfin.bound
      rw [store_codeGenHighwater] at this
      omega
    · rw [hfin.codeGenPtr, store_codeGenPtr]
    · rw [hfin.highwater, store_codeGenHighwater]

/-! ### Units that start with an empty list -/

/-- What is emitted after the first bytes of a unit leaves these alone. -/
theorem emitOps_finalize_own (hempty : s.poolLabels = none)
    {u : TcgContext} (hu : s.emitOps fuel ops = some u)
    (ht : u.codeGenFinalize fuel = some (.ok, t)) :
    s.codePtr ≤ t.codeGenPtr ∧
      ∀ x, x < s.codePtr ∨ t.codeGenPtr ≤ x → t.mem x = s.mem x := by
  obtain ⟨⟨A, hA⟩, hgrown, -⟩ := emitOps_spec (poolIn_of_none hempty s.codePtr s.codePtr) le_rfl hu
  obtain ⟨⟨r, v⟩, hv, hrt⟩ := map_eq_some_iff.mp ht
  cases r with
  | overflow => cases hrt
  | tooLarge => cases hrt
  | ok =>
    cases hrt
    obtain ⟨b, hfin, hend, -⟩ := tcgOutPoolFinalize_spec hA hv
    have hlast := le_roundUp v.codePtr (d := 16) (by omega)
    show s.codePtr ≤ roundUp v.codePtr 16 ∧
      ∀ x, x < s.codePtr ∨ roundUp v.codePtr 16 ≤ x → v.mem x = s.mem x
    rw [hend rfl] at hlast ⊢
    have hle := hgrown.le
    have hle' := hfin.le
    refine ⟨by omega, fun x hx => ?_⟩
    have hout : x < s.codePtr ∨ b ≤ x := by omega
    rw [hfin.mem x (by omega) (by omega), hgrown.mem x (by omega)]

/-- A unit that is finished has changed only its own bytes. -/
theorem codeGenUnit_own (hempty : s.poolLabels = none)
    (ht : s.codeGenUnit fuel ops = some (.ok, t)) :
    s.codeGenPtr ≤ t.codeGenPtr ∧
      ∀ x, x < s.codeGenPtr ∨ t.codeGenPtr ≤ x → t.mem x = s.mem x := by
  obtain ⟨u, hu, ht⟩ := bind_eq_some_iff.mp ht
  exact emitOps_finalize_own (s := s.codeGenStart) hempty hu ht

/-- The first bytes of a unit are in place when it is finished. -/
theorem codeGenUnit_header {bs : List UInt8}
    (hempty : s.poolLabels = none) (ht : s.codeGenUnit fuel (.bytes bs :: ops) = some (.ok, t)) :
    s.codeGenPtr + bs.length ≤ t.codeGenPtr ∧
      ∀ k < bs.length, t.mem (s.codeGenPtr + k) = bs.getD k 0 := by
  obtain ⟨u, hu, ht⟩ := bind_eq_some_iff.mp ht
  have hnone : (s.codeGenStart.tcgOut bs).poolLabels = none :=
    (store_poolLabels s.codeGenStart _ _).trans hempty
  have hptr : (s.codeGenStart.tcgOut bs).codePtr = s.codeGenPtr + bs.length := rfl
  obtain ⟨hle, hmem⟩ := emitOps_finalize_own hnone hu ht
  rw [hptr] at hle hmem
  refine ⟨hle, fun k hk => ?_⟩
  rw [hmem _ (by omega)]
  exact store_inside s.codeGenStart s.codeGenPtr bs hk

theorem codeGenUnit_bytes (fuel : ℕ) (s : TcgContext) (bs : List UInt8)
    (hempty : s.poolLabels = none) :
    s.codeGenUnit fuel [.bytes bs] = some (.ok, { s.codeGenStart.tcgOut bs with
      codeGenPtr := roundUp (s.codeGenPtr + bs.length) 16 }) := by
  have hnone : (s.codeGenStart.tcgOut bs).poolLabels = none :=
    (store_poolLabels s.codeGenStart _ _).trans hempty
  have hfinal : (s.codeGenStart.tcgOut bs).tcgOutPoolFinalize fuel =
      some (.ok, s.codeGenStart.tcgOut bs) := by
    rw [tcgOutPoolFinalize, hnone]
  show (s.codeGenStart.tcgOut bs).codeGenFinalize fuel = _
  rw [codeGenFinalize, hfinal]
  rfl

/-! ### Termination -/

structure PoolList (as : List ℕ) (s : TcgContext) : Prop where
  isList : IsList (fun a => (s.pool a).next) s.poolLabels as
  used : ∀ a ∈ as, a < s.poolCur
  nodup : as.Nodup

variable {as : List ℕ}

theorem poolPosition_total {pool : ℕ → PoolLabel} (d : BitVec 64) (prev : Option ℕ) (h : IsList (fun a => (pool a).next) p as) (hfuel : as.length < fuel) :
    ∃ front back, as = front ++ back ∧
      poolPosition pool d fuel prev p = some (front.getLast?.or prev, back.head?) := by
  induction fuel generalizing prev p as with
  | zero => omega
  | succ fuel ih =>
    cases as with
    | nil =>
      obtain rfl : p = none := h
      exact ⟨[], [], rfl, rfl⟩
    | cons a as =>
      obtain ⟨rfl, hrest⟩ := h
      rw [poolPosition]
      split
      · exact ⟨[], a :: as, rfl, rfl⟩
      · obtain ⟨front, back, rfl, hpos⟩ := ih (some a) hrest (by simpa using hfuel)
        refine ⟨a :: front, back, rfl, ?_⟩
        rw [hpos, getLast?_cons]
        cases front.getLast? <;> rfl

theorem next_linkAfter (s : TcgContext) (n : ℕ) (prev next : Option ℕ) :
    (fun a => ((s.linkAfter n prev next).pool a).next) =
      match prev with
      | none => update (fun a => (s.pool a).next) n next
      | some q => update (update (fun a => (s.pool a).next) n next) q (some n) := by
  cases prev with
  | none => exact comp_update PoolLabel.next s.pool n _
  | some q =>
    refine (comp_update PoolLabel.next _ q _).trans ?_
    rw [comp_update]
    rfl

theorem isList_linkAfter {front back : List ℕ} {n : ℕ}
    (h : IsList (fun a => (s.pool a).next) s.poolLabels (front ++ back)) (hn : n ∉ front ++ back)
    (hnodup : (front ++ back).Nodup) :
    IsList (fun a => ((s.linkAfter n front.getLast? back.head?).pool a).next)
      (s.linkAfter n front.getLast? back.head?).poolLabels (front ++ n :: back) := by
  rw [next_linkAfter]
  rcases eq_nil_or_concat' front with rfl | ⟨front, q, rfl⟩
  · have hcons := h.cons hn
    rwa [h.head?] at hcons
  · rw [getLast?_concat, append_assoc]
    rw [append_assoc] at h hn hnodup
    exact h.insert hn (nodup_middle.mp hnodup).notMem

theorem newPoolLabel_total (d : BitVec 64) (label : ℕ) (h : PoolList as s)
    (hfuel : as.length < fuel) :
    ∃ t bs, s.newPoolLabel fuel d label = some t ∧ PoolList bs t ∧ bs.length = as.length + 1 := by
  have hfresh : s.poolCur ∉ as := fun hmem => Nat.lt_irrefl _ (h.used _ hmem)
  have hlist : IsList (fun a => ((s.newPoolAlloc d label).pool a).next) s.poolLabels as := by
    refine h.isList.congr fun a ha => ?_
    have hne : a ≠ s.poolCur := ne_of_mem_of_not_mem ha hfresh
    simp [newPoolAlloc, hne]
  obtain ⟨front, back, rfl, hpos⟩ := poolPosition_total d none hlist hfuel
  rw [or_none] at hpos
  refine ⟨(s.newPoolAlloc d label).linkAfter s.poolCur front.getLast? back.head?,
    front ++ s.poolCur :: back, ?_, ⟨?_, ?_, ?_⟩, by simp; omega⟩
  · exact map_eq_some_iff.mpr ⟨_, hpos, rfl⟩
  · exact isList_linkAfter hlist hfresh h.nodup
  · intro a ha
    have hcur : ((s.newPoolAlloc d label).linkAfter s.poolCur front.getLast? back.head?).poolCur =
        s.poolCur + poolLabelSize := by
      cases front.getLast? <;> rfl
    rw [hcur, poolLabelSize]
    have hmem : a = s.poolCur ∨ a ∈ front ++ back := by
      simpa [or_left_comm] using ha
    rcases hmem with rfl | hmem
    · omega
    · have := h.used a hmem
      omega
  · exact nodup_middle.mpr (nodup_cons.mpr ⟨hfresh, h.nodup⟩)

theorem PoolList.tcgOut (h : PoolList as s) (bs : List UInt8) :
    PoolList as (s.tcgOut bs) := by
  refine ⟨?_, ?_, h.nodup⟩
  · simpa [TcgContext.tcgOut] using h.isList
  · simpa [TcgContext.tcgOut] using h.used

theorem emitOp_total (op : EmitOp) (h : PoolList as s)
    (hfuel : as.length < fuel) :
    ∃ t bs, s.emitOp fuel op = some t ∧ PoolList bs t ∧ bs.length ≤ as.length + 1 := by
  cases op with
  | bytes bs => exact ⟨_, as, rfl, h.tcgOut bs, by omega⟩
  | movi r arg => exact ⟨_, as, rfl, h.tcgOut _, by omega⟩
  | malloc size =>
    refine ⟨_, as, rfl, ⟨h.isList, fun a ha => ?_, h.nodup⟩, by omega⟩
    exact (h.used a ha).trans_le (Nat.le_add_right _ _)
  | pooled bs d =>
    obtain ⟨t, cs, ht, hcs, hlen⟩ := newPoolLabel_total d _ (h.tcgOut (bs ++ [0, 0, 0, 0])) hfuel
    exact ⟨t, cs, ht, hcs, hlen.le⟩
  | branch call dest =>
    simp only [emitOp, tcgOutBranch]
    split
    · exact ⟨_, as, rfl, h.tcgOut _, by omega⟩
    · obtain ⟨t, cs, ht, hcs, hlen⟩ := newPoolLabel_total dest _
        (h.tcgOut [0xff, if call then 0x15 else 0x25]) hfuel
      exact ⟨_, cs, map_eq_some_iff.mpr ⟨t, ht, rfl⟩, hcs.tcgOut _, hlen.le⟩

theorem emitOps_total (ops : List EmitOp) (h : PoolList as s)
    (hfuel : as.length + ops.length < fuel) :
    ∃ t bs, s.emitOps fuel ops = some t ∧ PoolList bs t ∧ bs.length ≤ as.length + ops.length := by
  induction ops generalizing s as with
  | nil => exact ⟨s, as, rfl, h, le_rfl⟩
  | cons op ops ih =>
    rw [length_cons] at hfuel
    have hlt : as.length < fuel := by omega
    obtain ⟨u, bs, hu, hbs, hlen⟩ := emitOp_total op h hlt
    obtain ⟨t, cs, ht, hcs, hlen'⟩ := ih hbs (by omega)
    refine ⟨t, cs, bind_eq_some_iff.mpr ⟨u, hu, ht⟩, hcs, ?_⟩
    rw [length_cons]
    omega

/-- The loop over a list ends. It fails only if the words do not fit below the high-water mark or
the unit is too long for a displacement. -/
theorem outPoolWords_total
    (l : Option (BitVec 64)) (h : PoolIn A lo a s) (hp : ∀ x, p = some x → x ∈ A)
    (hlist : IsList (fun a => (s.pool a).next) p as) (hfuel : as.length < fuel) :
    ∃ r t, s.outPoolWords fuel p l a = some (r, t) ∧
      (r = .ok ∨ s.codeGenHighwater < a + 8 * as.length ∨ lo + 2 ^ 31 ≤ a + 8 * as.length) := by
  induction fuel generalizing s p as l a with
  | zero => omega
  | succ fuel ih =>
    cases as with
    | nil =>
      obtain rfl : p = none := hlist
      exact ⟨_, _, rfl, .inl rfl⟩
    | cons p as =>
      obtain ⟨rfl, hrest⟩ := hlist
      have hlabel := h.label p (hp p rfl)
      rw [length_cons] at hfuel ⊢
      simp only [outPoolWords]
      split
      · rename_i hroom
        exact ⟨_, _, rfl, .inr (.inl (by omega))⟩
      · rename_i hroom
        obtain ⟨u, a', hword⟩ : ∃ u a', s.outPoolWord l a (s.pool p).data = (u, a') :=
          ⟨_, _, rfl⟩
        obtain ⟨hfin, hpool, hhead, -, ha'⟩ := outPoolWord_spec lo a hroom hword
        have hle := hfin.le
        simp only [hword]
        split
        · obtain ⟨r, t, ht, hr⟩ := ih (s := u.store (s.pool p).label
              (leBytes 4 (BitVec.ofInt 32 ((a' : ℤ) - 8 - 4 - (s.pool p).label)).toNat))
            (some (s.pool p).data) ((h.mono hle).congr (by simp [hhead]) (by simp [hpool]))
            (h.next p (hp p rfl)) (by simpa [hpool] using hrest) (by omega)
          refine ⟨r, t, ht, ?_⟩
          rw [store_codeGenHighwater, hfin.highwater] at hr
          rcases hr with hr | hr
          · exact .inl hr
          · exact .inr (by omega)
        · rename_i hfits
          refine ⟨_, _, rfl, .inr (.inr ?_)⟩
          simp only [fitsInt32, decide_eq_true_eq] at hfits
          omega

def unitBound (ops : List EmitOp) : ℕ := EmitOp.total ops + 7 + 8 * ops.length

theorem codeGenUnit_total (hempty : s.poolLabels = none)
    (hfuel : ops.length < fuel) :
    ∃ r t, s.codeGenUnit fuel ops = some (r, t) ∧
      (r = .ok ∨ s.codeGenHighwater < s.codeGenPtr + unitBound ops ∨ 2 ^ 31 ≤ unitBound ops) := by
  have hstart : PoolList [] s.codeGenStart := ⟨hempty, by simp, nodup_nil⟩
  obtain ⟨u, as, hu, has, hlen⟩ := emitOps_total ops hstart (by simpa using hfuel)
  obtain ⟨⟨A, hA⟩, hgrown, hsize⟩ := emitOps_spec
    (poolIn_of_none (s := s.codeGenStart) hempty s.codeGenPtr s.codeGenPtr) le_rfl hu
  have hptr : s.codeGenStart.codePtr = s.codeGenPtr := rfl
  have hwater : u.codeGenHighwater = s.codeGenHighwater := hgrown.highwater
  have hgrownle := hgrown.le
  rw [hptr] at hsize hgrownle
  rw [max_eq_right hgrownle] at hA
  rw [length_nil, zero_add] at hlen
  obtain ⟨r, v, hv, hr⟩ : ∃ r v, u.tcgOutPoolFinalize fuel = some (r, v) ∧
      (r = .ok ∨ s.codeGenHighwater < s.codeGenPtr + unitBound ops ∨ 2 ^ 31 ≤ unitBound ops) := by
    rw [tcgOutPoolFinalize]
    split
    · exact ⟨_, _, rfl, .inl rfl⟩
    · rename_i p hp
      have hle := le_roundUp u.codePtr (d := 8) (by omega)
      have hlt := roundUp_lt u.codePtr (d := 8) (by omega)
      generalize roundUp u.codePtr 8 = a at hle hlt ⊢
      obtain ⟨r, v, hv, hr⟩ := outPoolWords_total (p := some p) none
        ((hA.mono hle).congr (store_poolLabels u u.codePtr (replicate (a - u.codePtr) 0x90))
          (store_pool u _ _)) (fun x hx => hA.head x (hx ▸ hp))
        (by simpa [hp] using has.isList) (hlen.trans_lt hfuel)
      refine ⟨r, v, hv, ?_⟩
      rw [store_codeGenHighwater, hwater] at hr
      rcases hr with hr | hr
      · exact .inl hr
      · refine .inr ?_
        rw [unitBound]
        omega
  cases r with
  | ok =>
    refine ⟨.ok, { v with codeGenPtr := roundUp v.codePtr 16 },
      bind_eq_some_iff.mpr ⟨u, hu, ?_⟩, .inl rfl⟩
    simp [codeGenFinalize, hv]
  | overflow =>
    refine ⟨.overflow, v, bind_eq_some_iff.mpr ⟨u, hu, ?_⟩, hr⟩
    simp [codeGenFinalize, hv]
  | tooLarge =>
    refine ⟨.tooLarge, v, bind_eq_some_iff.mpr ⟨u, hu, ?_⟩, hr⟩
    simp [codeGenFinalize, hv]

end TcgContext

/-! ### Sequences of emissions -/

/-- What is emitted into the buffer: a trampoline or translation function, or a block. A flush starts
the buffer over. -/
inductive Emission where
  | unit (ops : List EmitOp)
  | block (b : Block)
  | flush (start : ℕ)

namespace Emission
open TcgContext

def run (fuel : ℕ) (s : TcgContext) : Emission → Option TcgContext
  | unit ops => (s.codeGenUnit fuel ops).bind fun
    | (.ok, s) => some s
    | _ => none
  | block b => s.tbGenCodeInternal fuel b
  | flush start => some { s with codeGenPtr := start }

def Step (s : TcgContext) (e : Emission) (t : TcgContext) : Prop := ∃ fuel, e.run fuel s = some t

/-- A unit ends, by `abort` only for lack of room, and changes no byte but its own. -/
def OwnBytes (s : TcgContext) : Emission → Prop
  | unit ops =>
    (∃ n, ∀ fuel ≥ n, ∃ r t, s.codeGenUnit fuel ops = some (r, t) ∧
      (r = .ok ∨ s.codeGenHighwater < s.codeGenPtr + unitBound ops ∨ 2 ^ 31 ≤ unitBound ops)) ∧
    ∀ fuel t, s.codeGenUnit fuel ops = some (.ok, t) →
      ∀ x, x < s.codeGenPtr ∨ t.codeGenPtr ≤ x → t.mem x = s.mem x
  | _ => True

/-- No reference to a pool word is left over at `code_gen_start`. -/
def StartsEmpty (s : TcgContext) : Emission → Prop
  | unit _ => s.poolLabels = none
  | _ => True

theorem StartsEmpty.ownBytes {s : TcgContext} {e : Emission} (h : StartsEmpty s e) :
    OwnBytes s e := by
  cases e with
  | unit ops =>
    refine ⟨⟨ops.length + 1, fun fuel hfuel => codeGenUnit_total h hfuel⟩, fun fuel t ht => ?_⟩
    exact (codeGenUnit_own h ht).2
  | block b => trivial
  | flush start => trivial

end Emission

/-- In every sequence of emissions in which no pool reference is left over at a `code_gen_start`,
each trampoline emission ends and touches only its own bytes. -/
theorem emissions_ownBytes (s : TcgContext) (es : List Emission)
    (hempty : Runs.Along Emission.Step Emission.StartsEmpty s es) :
    Runs.Along Emission.Step Emission.OwnBytes s es :=
  hempty.mono fun _ _ h => h.ownBytes

/-- An empty buffer right after `tcg_prologue_init`. -/
def freshContext : TcgContext where
  mem := fun _ => 0
  emitted := 0x10000
  codeGenPtr := 0x10000
  codePtr := 0x10000
  codeGenHighwater := 0x20000
  poolLabels := none
  pool := fun _ => ⟨none, 0, 0⟩
  poolCur := 0

def farTarget : BitVec 64 := 0x7fff00000000

def farJump : List EmitOp := [.branch false farTarget]

/-- A jump inside the buffer and then a far one. -/
theorem emissions_ownBytes_nearJump_farJump :
    Runs.Along Emission.Step Emission.OwnBytes freshContext
      [.unit [.branch false 0x10100], .unit farJump] := by
  refine emissions_ownBytes _ _ ⟨rfl, fun t ht => ⟨?_, fun _ _ => trivial⟩⟩
  obtain ⟨fuel, ht⟩ := ht
  cases ht
  rfl

namespace TcgContext

theorem memcmpGe_self (n : ℕ) (f : ℕ → UInt8) : memcmpGe n f f = true := by
  induction n generalizing f with
  | zero => rfl
  | succ n ih => rw [memcmpGe, if_pos rfl, ih]

/-- A cell that is its own successor keeps the loop going. -/
theorem outPoolWords_cycle (fuel : ℕ) (s : TcgContext) (p a : ℕ) (hnext : (s.pool p).next = some p)
    (hfits : fitsInt32 ((a : ℤ) - 8 - 4 - (s.pool p).label) = true) :
    s.outPoolWords fuel (some p) (some (s.pool p).data) a = none := by
  induction fuel generalizing s with
  | zero => rfl
  | succ fuel ih =>
    simp only [outPoolWords, outPoolWord, ne_eq, not_true_eq_false, false_and, if_false, if_true]
    rw [if_pos hfits, hnext]
    have hrest := ih (s.store (s.pool p).label
      (leBytes 4 (BitVec.ofInt 32 ((a : ℤ) - 8 - 4 - (s.pool p).label)).toNat))
    rw [store_pool] at hrest
    exact hrest hnext hfits

theorem codeGenFinalize_cycle (fuel : ℕ) (s : TcgContext) (p a : ℕ) (hhead : s.poolLabels = some p)
    (hnext : (s.pool p).next = some p) (ha : roundUp s.codePtr 8 = a)
    (hroom : a ≤ s.codeGenHighwater)
    (hfits : fitsInt32 (((a + 8 : ℕ) : ℤ) - 8 - 4 - (s.pool p).label) = true) :
    s.codeGenFinalize fuel = none := by
  suffices hnone : s.tcgOutPoolFinalize fuel = none by rw [codeGenFinalize, hnone]; rfl
  rw [tcgOutPoolFinalize, hhead]
  simp only [ha]
  cases fuel with
  | zero => rfl
  | succ fuel =>
    simp only [outPoolWords, store_pool, store_codeGenHighwater]
    rw [if_neg (by omega)]
    simp only [outPoolWord, reduceCtorEq, if_false, hfits, if_true, hnext]
    have hcycle := outPoolWords_cycle fuel (((s.store s.codePtr
      (replicate (a - s.codePtr) 0x90)).store a (leBytes 8 (s.pool p).data.toNat)).store
        (s.pool p).label (leBytes 4
          (BitVec.ofInt 32 (((a + 8 : ℕ) : ℤ) - 8 - 4 - (s.pool p).label)).toNat)) p (a + 8)
    simp only [store_pool] at hcycle
    exact hcycle hnext hfits

end TcgContext

/-- The cell of the reference that is left over is the one that the next reference is given. -/
theorem newPoolLabel_reused (fuel : ℕ) (s : TcgContext) (d : BitVec 64) (label : ℕ)
    (hhead : s.poolLabels = some s.poolCur) :
    s.newPoolLabel (fuel + 1) d label = some { s with
      pool := update s.pool s.poolCur ⟨some s.poolCur, label, d⟩
      poolCur := s.poolCur + poolLabelSize } := by
  simp only [newPoolLabel, newPoolAlloc, hhead, poolPosition,
    update_self, memcmpGe_self, if_true, map_some,
    linkAfter, update_idem]

theorem emitOps_farJump (fuel : ℕ) (s : TcgContext)
    (hfar : fitsInt32 ((farTarget.toNat : ℤ) - s.codePtr - 5) = false) :
    s.emitOps fuel farJump =
      ((s.tcgOut [0xff, 0x25]).newPoolLabel fuel farTarget (s.codePtr + 2)).map
        fun s => s.tcgOut [0, 0, 0, 0] := by
  simp only [farJump, emitOps, emitOp, tcgOutBranch, hfar,
    Bool.false_eq_true, if_false]
  exact bind_fun_some _

theorem farJump_loops (fuel : ℕ) (s : TcgContext) (hhead : s.poolLabels = some poolBase)
    (hptr : s.codeGenPtr = 0x10010) (hwater : s.codeGenHighwater = 0x20000) :
    s.codeGenUnit fuel farJump = none := by
  have hstart : s.codeGenStart.codePtr = 0x10010 := hptr
  rw [codeGenUnit, emitOps_farJump _ _ (by rw [hstart]; rfl)]
  cases fuel with
  | zero => rfl
  | succ fuel =>
    have hcur : (s.codeGenStart.tcgOut [0xff, 0x25]).poolCur = poolBase := by
      simp [tcgOut, codeGenStart]
    have hhead' : (s.codeGenStart.tcgOut [0xff, 0x25]).poolLabels = some poolBase := by
      simpa [tcgOut, codeGenStart] using hhead
    rw [newPoolLabel_reused _ _ _ _ (by rw [hhead', hcur]), hcur]
    refine codeGenFinalize_cycle _ _ poolBase 0x10018 ?_ ?_ ?_ ?_ ?_
    · simpa [tcgOut, codeGenStart] using hhead
    · simp [tcgOut]
    · simp [tcgOut, hstart]
      rfl
    · simp [tcgOut, codeGenStart, hwater]
    · simp [tcgOut, hstart]
      rfl

/-- The reference of one far jump is still in the list when the next unit is given the same cell, so
that the cell becomes its own successor. -/
theorem emissions_ownBytes_two_farJumps :
    ¬ Runs.Along Emission.Step Emission.OwnBytes freshContext [.unit farJump, .unit farJump] := by
  intro h
  obtain ⟨t, ht, hhead, hptr, hwater⟩ : ∃ t, freshContext.codeGenUnit 2 farJump = some (.ok, t) ∧
      t.poolLabels = some 0 ∧ t.codeGenPtr = 0x10010 ∧ t.codeGenHighwater = 0x20000 :=
    ⟨_, rfl, rfl, rfl, rfl⟩
  have hstep : Emission.Step freshContext (.unit farJump) t := ⟨2, by rw [Emission.run, ht]; rfl⟩
  obtain ⟨⟨n, hn⟩, -⟩ := (h.2 t hstep).1
  obtain ⟨r, u, hu, -⟩ := hn n le_rfl
  rw [farJump_loops n t hhead hptr hwater] at hu
  cases hu

end Iqemu64
