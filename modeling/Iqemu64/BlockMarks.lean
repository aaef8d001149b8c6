import Iqemu64.AaLayout
import Iqemu64.TypeCodes

/-!
# Marks of block arguments

`handle` collects in one word which types of a signature are blocks, with one bit for the result and
the indices of the arguments modulo 64, and marks the places of blocks in both descriptions by it.
-/

namespace Iqemu64
open CString List Option

structure ABIFnInfo.Unmarked {R : Type} (info : ABIFnInfo R) (n : ℕ) : Prop where
  rinfo : info.rinfo.block = false
  length : info.ainfo.length = n
  ainfo : ∀ a ∈ info.ainfo, a.block = false

def ABIFnInfo.Marked {R : Type} (info : ABIFnInfo R) (p : ParsedTypes) : Prop :=
  info.rinfo.block = p.ret.isBlock ∧
    info.ainfo.map ABIArgInfo.block = p.args.map ParsedType.isBlock

section

variable {ty : FfiType} {tys ds : List FfiType} {nfixed : ℕ}

theorem aaArg_unmarked {al al' : AaAlloc} {a : ABIArgInfo AReg} (h : aaArg ty al = some (a, al')) :
    a.block = false := by
  -- the scalars take one general register each
  have hgpr : ∀ {n k}, some (({ loc := (al.passInGpr 1 n k).1, size := k } : ABIArgInfo AReg),
      (al.passInGpr 1 n k).2) = some (a, al') → a.block = false := by
    intro n k hk
    cases hk
    rfl
  unfold aaArg at h
  split at h
  case h_1 => cases h
  all_goals first
    | exact hgpr h
    | obtain ⟨v, -, hv⟩ := map_eq_some_iff.mp h
      split_ifs at hv <;> obtain ⟨rfl, -⟩ := Prod.mk.inj hv <;> rfl

theorem aaArgs_unmarked {i : ℕ} {al al' : AaAlloc} {infos : List (ABIArgInfo AReg)}
    (h : aaArgs nfixed tys i al = some (infos, al')) :
    infos.length = tys.length ∧ ∀ a ∈ infos, a.block = false := by
  induction tys generalizing i al infos with
  | nil =>
    cases h
    simp
  | cons ty tys ih =>
    obtain ⟨a, infos', al₁, rfl, harg, hrest⟩ := aaArgs_cons h
    obtain ⟨hlen, hall⟩ := ih hrest
    exact ⟨by simp [hlen], forall_mem_cons.mpr ⟨aaArg_unmarked harg, hall⟩⟩

theorem xxArg_unmarked {al al' : XxAlloc} {a : ABIArgInfo XReg} (h : xxArg ty al = some (a, al')) :
    a.block = false := by
  obtain ⟨e, -, he⟩ := bind_eq_some_iff.mp h
  split at he
  · cases he
    rfl
  · obtain ⟨⟨rs, al₁⟩, -, hrs⟩ := map_eq_some_iff.mp he
    obtain ⟨rfl, -⟩ := Prod.mk.inj hrs
    rfl

theorem xxArgs_unmarked {al al' : XxAlloc} {infos : List (ABIArgInfo XReg)}
    (h : xxArgs tys al = some (infos, al')) :
    infos.length = tys.length ∧ ∀ a ∈ infos, a.block = false := by
  induction tys generalizing al infos with
  | nil =>
    cases h
    simp
  | cons ty tys ih =>
    obtain ⟨⟨a, al₁⟩, harg, h⟩ := bind_eq_some_iff.mp h
    obtain ⟨⟨infos', al₂⟩, hrest, h⟩ := map_eq_some_iff.mp h
    cases h
    obtain ⟨hlen, hall⟩ := ih hrest
    exact ⟨by simp [hlen], forall_mem_cons.mpr ⟨xxArg_unmarked harg, hall⟩⟩

theorem myXxFiPrepCif_unmarked {info : ABIFnInfo XReg} (h : myXxFiPrepCif ty tys = some info) :
    info.Unmarked tys.length := by
  obtain ⟨d, -, h⟩ := bind_eq_some_iff.mp h
  obtain ⟨ds, hds, h⟩ := bind_eq_some_iff.mp h
  obtain ⟨flags, -, h⟩ := bind_eq_some_iff.mp h
  obtain ⟨⟨infos, al⟩, hargs, rfl⟩ := map_eq_some_iff.mp h
  obtain ⟨hlen, hall⟩ := xxArgs_unmarked hargs
  exact ⟨by cases flags <;> rfl, hlen.trans (mapM_length hds), hall⟩

theorem myAaFiPrepCifCore_unmarked {info : ABIFnInfo AReg}
    (h : myAaFiPrepCifCore nfixed ty tys = some info) : info.Unmarked tys.length := by
  obtain ⟨d, -, h⟩ := bind_eq_some_iff.mp h
  obtain ⟨ds, hds, h⟩ := bind_eq_some_iff.mp h
  obtain ⟨flags, -, h⟩ := bind_eq_some_iff.mp h
  obtain ⟨⟨infos, al⟩, hargs, rfl⟩ := map_eq_some_iff.mp h
  obtain ⟨hlen, hall⟩ := aaArgs_unmarked hargs
  exact ⟨by cases flags <;> rfl, hlen.trans (mapM_length hds), hall⟩

end

section

variable {p : ParsedTypes} {nfixed : ℕ} {aa : ABIFnInfo AReg} {xx : ABIFnInfo XReg}

theorem ABIFnInfo.Unmarked.marked_iff {R : Type} {info : ABIFnInfo R} {mask : BitVec 64}
    (h : info.Unmarked p.args.length) : (info.markBlocks mask).Marked p ↔
      mask.getLsbD 63 = p.ret.isBlock ∧
        ∀ i ty, p.args[i]? = some ty → mask.getLsbD (i % 64) = ty.isBlock := by
  have hret : (info.markBlocks mask).rinfo.block = mask.getLsbD 63 := by
    rw [ABIFnInfo.markBlocks, h.rinfo, Bool.false_or]
  have hargs : (info.markBlocks mask).ainfo.map ABIArgInfo.block =
      (range p.args.length).map fun i => mask.getLsbD (i % 64) := by
    refine ext_getElem (by simp [ABIFnInfo.markBlocks, h.length]) fun i hi hi' => ?_
    simp [ABIFnInfo.markBlocks, h.ainfo _ (getElem_mem _)]
  rw [ABIFnInfo.Marked, hret, hargs]
  refine and_congr_right fun _ => ⟨fun heq i ty hty => ?_, fun hall => ?_⟩
  · obtain ⟨hi, rfl⟩ := List.getElem?_eq_some_iff.mp hty
    simpa [hi] using congrArg (·[i]?) heq
  · refine ext_getElem (by simp) fun i hi hi' => ?_
    simpa using hall i _ (getElem?_eq_getElem (by simpa using hi'))

theorem prepFnInfos_unmarked (h : prepFnInfos p nfixed = some (aa, xx)) :
    ∃ aa' xx', aa = ABIFnInfo.markBlocks (blkMask p) aa' ∧ xx = ABIFnInfo.markBlocks (blkMask p) xx' ∧
      aa'.Unmarked p.args.length ∧ xx'.Unmarked p.args.length := by
  obtain ⟨xx', hxx, h⟩ := bind_eq_some_iff.mp h
  have hxx' : xx'.Unmarked p.args.length := by simpa using myXxFiPrepCif_unmarked hxx
  split_ifs at h with hvar
  · obtain ⟨aa', haa, h⟩ := bind_eq_some_iff.mp h
    cases h
    unfold myAaFiPrepCifVar at haa
    split_ifs at haa
    exact ⟨aa', xx', rfl, rfl, by simpa using myAaFiPrepCifCore_unmarked haa, hxx'⟩
  · obtain ⟨aa', haa, h⟩ := bind_eq_some_iff.mp h
    cases h
    exact ⟨aa', xx', rfl, rfl, by simpa using myAaFiPrepCifCore_unmarked haa, hxx'⟩

/-- Both descriptions carry the marks of the types if and only if arguments whose indices are equal
modulo 64 are all blocks or all not, as the result is if the index is 63 modulo 64. -/
theorem handle_marked_iff {types : List Char} (hp : handleTypes types = .ok (some p))
    (h : handle types nfixed = .ok (some (aa, xx))) :
    (aa.Marked p ∧ xx.Marked p) ↔
      (∀ i j ty ty', p.args[i]? = some ty → p.args[j]? = some ty' → i % 64 = j % 64 →
        ty.isBlock = ty'.isBlock) ∧
      ∀ i ty, p.args[i]? = some ty → i % 64 = 63 → ty.isBlock = p.ret.isBlock := by
  rw [handle, hp, ok_map] at h
  obtain ⟨aa', xx', rfl, rfl, haa, hxx⟩ := prepFnInfos_unmarked (Except.ok.inj h)
  rw [haa.marked_iff, hxx.marked_iff, and_self_iff]
  constructor
  · rintro ⟨hret, hargs⟩
    refine ⟨fun i j ty ty' hi hj hij => ?_, fun i ty hi h63 => ?_⟩
    · rw [← hargs i ty hi, ← hargs j ty' hj, hij]
    · rw [← hargs i ty hi, h63, hret]
  · rintro ⟨hsame, hret⟩
    refine ⟨?_, fun i ty hi => ?_⟩
    · rw [Bool.eq_iff_iff, getLsbD_blkMask p (by decide)]
      refine ⟨?_, fun hblk => .inl ⟨rfl, hblk⟩⟩
      rintro (⟨-, hblk⟩ | ⟨i, ty, hi, hblk, h63⟩)
      · exact hblk
      · exact hret i ty hi h63 ▸ hblk
    · rw [Bool.eq_iff_iff, getLsbD_blkMask p (Nat.mod_lt i (by decide))]
      refine ⟨?_, fun hblk => .inr ⟨i, ty, hi, hblk, rfl⟩⟩
      rintro (⟨h63, hblk⟩ | ⟨j, ty', hj, hblk, hij⟩)
      · exact hret i ty hi h63 ▸ hblk
      · exact hsame j i ty' ty hj hi hij ▸ hblk

end

theorem handle_marked_block :
    ∃ p aa xx, handleTypes ['v', '@', '?', '0'] = .ok (some p) ∧
      handle ['v', '@', '?', '0'] invalidValue = .ok (some (aa, xx)) ∧ aa.Marked p ∧ xx.Marked p := by
  have hp : handleTypes ['v', '@', '?', '0'] =
      .ok (some ⟨⟨.mk 1 1 .void [], false⟩, [⟨Scalar.pointer.ffi, true⟩], []⟩) := rfl
  obtain ⟨aa, xx, h⟩ : ∃ aa xx, handle ['v', '@', '?', '0'] invalidValue = .ok (some (aa, xx)) :=
    ⟨_, _, rfl⟩
  refine ⟨_, aa, xx, hp, h, (handle_marked_iff hp h).mpr ⟨fun i j ty ty' hi hj _ => ?_, ?_⟩⟩
  · have hi := mem_singleton.mp (mem_of_getElem? hi)
    have hj := mem_singleton.mp (mem_of_getElem? hj)
    rw [hi, hj]
  · intro i ty hi h63
    have hlt : i < 1 := (List.getElem?_eq_some_iff.mp hi).1
    omega

def lateBlockTypes : List Char := 'v' :: replicate 63 'i' ++ ['@', '?']

theorem lateBlock_marks_result :
    (handleTypes lateBlockTypes).toOption.join.map (fun p => p.ret.isBlock) = some false ∧
      (handle lateBlockTypes invalidValue).toOption.join.map
        (fun infos => (infos.1.rinfo.block, infos.2.rinfo.block)) = some (true, true) := by
  decide

end Iqemu64
