import Mathlib.Algebra.Group.Nat.Defs
import Mathlib.Data.List.Induction
import Esesc.Emul.Conditions

/-!
# Reservations of the micro-op core

`MARK_EX`, `ST_COND` and `ST_CHECK_EX` build the load-linked and store-conditional pairs of the
guest. The reservations of all flows share one table of 128 slots, `AHash`, which keeps the flow
that took a slot last, not the address. Every micro-op is one atomic step.

* `takings`: who took which slot, read off the micro-ops alone.
* `Rep.exec`: the table holds the last taker of every slot, and whether an `ST_COND` ever passed.
* `storeConditional_iff`: the runs on which a store-conditional is atomic and reports its outcome.
-/

namespace Esesc.Emul.AHash

abbrev FlowID := BitVec 32

/-- `atomicHash`. -/
structure Entry where
  valid : Bool
  fid : FlowID
  scPassed : Bool
  deriving DecidableEq

end AHash

open AHash

/-- The table, indexed by `hash`, and the number of insertions. -/
structure AHash where
  atomic_hash : BitVec 32 → Entry
  marked : BitVec 32

namespace AHash

def HASH_SIZE : BitVec 32 := 128

def init : AHash := ⟨fun _ => ⟨false, 0, false⟩, 0⟩

def hash (hval : BitVec 32) : BitVec 32 := (hval ^^^ (hval >>> 5)) &&& (HASH_SIZE - 1)

def isMarked (h : AHash) : Bool := h.marked ≠ 0

def insert (h : AHash) (fid : FlowID) (addr : BitVec 32) : AHash where
  atomic_hash := Function.update h.atomic_hash (hash addr)
    { h.atomic_hash (hash addr) with valid := true, fid := fid }
  marked := h.marked + 1

def setSC (h : AHash) (fid : FlowID) (addr : BitVec 32) : Bool × AHash :=
  let e := h.atomic_hash (hash addr)
  if e.valid ∧ e.fid = fid then
    (true, { h with atomic_hash := Function.update h.atomic_hash (hash addr) { e with scPassed := true } })
  else (false, h)

def checkSC (h : AHash) (fid : FlowID) (addr : BitVec 32) : Bool :=
  let e := h.atomic_hash (hash addr)
  e.valid ∧ e.scPassed ∧ e.fid = fid

/-! ## Micro-ops -/

inductive Width
  | U64
  | U32
  | U16
  | U08
  deriving DecidableEq

def Width.bytes : Width → ℕ
  | .U64 => 8
  | .U32 => 4
  | .U16 => 2
  | .U08 => 1

/-- The micro-ops of a flow, with the values of their operands: the register of the address, and
what is to be stored. -/
inductive Op
  | ST (w : Width) (fid : FlowID) (src1 data : BitVec 64)
  | MARK_EX (fid : FlowID) (src1 : BitVec 64)
  | ST_COND (w : Width) (fid : FlowID) (src1 data : BitVec 64)
  | ST_CHECK_EX (fid : FlowID) (src1 : BitVec 64)
  deriving DecidableEq

def Op.fid : Op → FlowID
  | ST _ f _ _ | MARK_EX f _ | ST_COND _ f _ _ | ST_CHECK_EX f _ => f

/-- The address of a plain store, before it is cut to 32 bits. The two wider ones clear its lowest bit. -/
def plainAddr : Width → BitVec 64 → BitVec 64
  | .U64, src1 | .U32, src1 => src1 &&& 0xFFFFFFFE
  | .U16, src1 | .U08, src1 => src1 &&& 0xFFFFFFFF

/-- Memory and the table go by the lower half of an address. -/
def Op.addr : Op → BitVec 32
  | ST w _ r _ => (plainAddr w r).setWidth 32
  | MARK_EX _ r | ST_COND _ _ r _ | ST_CHECK_EX _ r => r.setWidth 32

/-- A call of `st64`, `st32`, `st16` or `st08`. -/
structure Write where
  addr : BitVec 32
  width : Width
  data : BitVec 64
  deriving DecidableEq

/-- The bytes of a write. -/
def Write.Covers (w : Write) (a : BitVec 32) : Prop := w.addr.toNat ≤ a.toNat ∧ a.toNat < w.addr.toNat + w.width.bytes

instance (w : Write) (a : BitVec 32) : Decidable (w.Covers a) := inferInstanceAs (Decidable (_ ∧ _))

def Width.cut (w : Width) (data : BitVec 64) : BitVec 64 := (data.setWidth (8 * w.bytes)).setWidth 64

/-- What a micro-op does besides: it writes memory, or sets the flags. -/
structure Effect where
  write : Option Write
  icc : Option CCType

def exec (h : AHash) : Op → AHash × Effect
  | .ST w fid src1 data =>
    let temp1 := plainAddr w src1
    let write : Write := ⟨temp1.setWidth 32, w, w.cut data⟩
    if w = .U32 ∧ temp1 = 0xFFFFFFFF then (h, ⟨none, none⟩)
    else if h.isMarked then (h.insert fid (temp1.setWidth 32), ⟨some write, none⟩)
    else (h, ⟨some write, none⟩)
  | .MARK_EX fid src1 => (h.insert fid (src1.setWidth 32), ⟨none, none⟩)
  | .ST_COND w fid src1 data =>
    let (passed, h) := h.setSC fid (src1.setWidth 32)
    if passed then (h, ⟨some ⟨src1.setWidth 32, w, w.cut data⟩, none⟩) else (h, ⟨none, none⟩)
  | .ST_CHECK_EX fid src1 => (h, ⟨none, some (if h.checkSC fid (src1.setWidth 32) then 1 <<< 2 else 0 <<< 2)⟩)

/-- The table after a list of micro-ops, in the order the flows took their turns. -/
def after (ops : List Op) : AHash := ops.foldl (fun h op => (h.exec op).1) init

/-- What a micro-op does after others. -/
def effect (ops : List Op) (op : Op) : Effect := ((after ops).exec op).2

/-! ## What is asked of a store-conditional -/

/-- Whether a micro-op writes a given address when its turn comes. -/
def Writes (ops : List Op) (op : Op) (a : BitVec 32) : Prop := ∃ w, (effect ops op).write = some w ∧ w.Covers a

/-- Whether a micro-op is about a given address at all. -/
def Op.Touches (a : BitVec 32) : Op → Prop
  | op@(.ST w _ _ _) | op@(.ST_COND w _ _ _) => Write.Covers ⟨op.addr, w, 0⟩ a
  | op@(.MARK_EX _ _) | op@(.ST_CHECK_EX _ _) => op.addr = a

/-- An `ST_COND` of `f` to `a` in a run: `mark` ends with the latest `MARK_EX` of `f` on `a`, and `mid`
is what all flows do between the two. -/
structure Attempt (ops : List Op) (f : FlowID) (a : BitVec 32) (mark mid : List Op) (sc : Op) : Prop where
  marks : ∃ pre r, mark = pre ++ [.MARK_EX f r] ∧ (Op.MARK_EX f r).addr = a
  latest : ∀ r, .MARK_EX f r ∈ mid → (Op.MARK_EX f r).addr ≠ a
  conditional : (∃ w r d, sc = .ST_COND w f r d) ∧ sc.addr = a
  run : mark ++ mid ++ [sc] <+: ops

/-- Another flow has written `a` since. -/
def Interfered (f : FlowID) (a : BitVec 32) (mark mid : List Op) : Prop :=
  ∃ m op m', mid = m ++ op :: m' ∧ op.fid ≠ f ∧ Writes (mark ++ m) op a

/-- **Atomic.** No `ST_COND` writes memory after another flow's write. -/
def Atomic (ops : List Op) : Prop := ∀ f a mark mid sc, Attempt ops f a mark mid sc → Interfered f a mark mid →
  (effect (mark ++ mid) sc).write = none

/-- An `ST_COND` of `f` to `a`, and an `ST_CHECK_EX` that is the next micro-op of `f` on `a`. -/
structure Checked (ops : List Op) (f : FlowID) (a : BitVec 32) (pre mid : List Op) (sc ck : Op) : Prop where
  conditional : (∃ w r d, sc = .ST_COND w f r d) ∧ sc.addr = a
  quiet : ∀ op ∈ mid, op.fid = f → ¬op.Touches a
  check : (∃ r, ck = .ST_CHECK_EX f r) ∧ ck.addr = a
  run : pre ++ sc :: mid ++ [ck] <+: ops

/-- **Reported.** An `ST_CHECK_EX` sets the zero flag exactly when its `ST_COND` wrote memory. -/
def Reported (ops : List Op) : Prop := ∀ f a pre mid sc ck, Checked ops f a pre mid sc ck →
  ((∃ icc, (effect (pre ++ sc :: mid) ck).icc = some icc ∧ ccZ icc ≠ 0) ↔ (effect pre sc).write ≠ none)

/-! ## Who took a slot -/

/-- The slot a micro-op takes: its own, if it marks, or stores while there are marks. -/
def taken (marks : ℕ) : Op → Option (FlowID × BitVec 32)
  | op@(.ST _ f _ _) => if marks % 2 ^ 32 ≠ 0 then some (f, hash op.addr) else none
  | op@(.MARK_EX f _) => some (f, hash op.addr)
  | .ST_COND .. | .ST_CHECK_EX .. => none

/-- The flows that took slots, oldest first. -/
def takings (ops : List Op) : List (FlowID × BitVec 32) :=
  ops.foldl (fun ts op => ts ++ (taken ts.length op).toList) []

/-- The last flow to take a slot. -/
def taker (ops : List Op) (k : BitVec 32) : Option FlowID :=
  ((takings ops).filter fun t => t.2 = k).getLast?.map Prod.fst

/-- Some `ST_COND` came when its flow was the last to have taken the slot. -/
def Passed (ops : List Op) (k : BitVec 32) : Prop :=
  ∃ pre w f r d, pre ++ [.ST_COND w f r d] <+: ops ∧ hash (Op.ST_COND w f r d).addr = k ∧ taker pre k = some f

/-! ## The table keeps the last taker -/

theorem after_concat (ops : List Op) (op : Op) : after (ops ++ [op]) = ((after ops).exec op).1 := by
  simp [after, List.foldl_append]

theorem takings_concat (ops : List Op) (op : Op) :
    takings (ops ++ [op]) = takings ops ++ (taken (takings ops).length op).toList := by
  simp [takings, List.foldl_append]

theorem taker_concat (ops : List Op) (op : Op) (k : BitVec 32) : taker (ops ++ [op]) k =
    match taken (takings ops).length op with
    | some t => if t.2 = k then some t.1 else taker ops k
    | none => taker ops k := by
  unfold taker
  rw [takings_concat, List.filter_append]
  rcases taken (takings ops).length op with _ | t
  · simp
  · by_cases ht : t.2 = k
    · simp [ht]
    · simp [ht]

theorem passed_concat (ops : List Op) (op : Op) (k : BitVec 32) : Passed (ops ++ [op]) k ↔
    Passed ops k ∨ ∃ w f r d, op = .ST_COND w f r d ∧ hash op.addr = k ∧ taker ops k = some f := by
  constructor
  · rintro ⟨pre, w, f, r, d, hpre, hk, ht⟩
    rcases List.prefix_concat_iff.1 hpre with heq | hpre
    · obtain ⟨rfl, hop⟩ := List.append_inj' heq rfl
      obtain rfl : _ = op := by simpa using hop
      exact .inr ⟨w, f, r, d, rfl, hk, ht⟩
    · exact .inl ⟨pre, w, f, r, d, hpre, hk, ht⟩
  · rintro (⟨pre, w, f, r, d, hpre, hk, ht⟩ | ⟨w, f, r, d, rfl, hk, ht⟩)
    · exact ⟨pre, w, f, r, d, hpre.trans (List.prefix_append _ _), hk, ht⟩
    · exact ⟨ops, w, f, r, d, List.prefix_rfl, hk, ht⟩

/-- What the table holds of a run. -/
structure Rep (h : AHash) (ops : List Op) : Prop where
  marked : h.marked = BitVec.ofNat 32 (takings ops).length
  valid : ∀ k, (h.atomic_hash k).valid = (taker ops k).isSome
  fid : ∀ k f, taker ops k = some f → (h.atomic_hash k).fid = f
  scPassed : ∀ k, (h.atomic_hash k).scPassed = true ↔ Passed ops k

theorem Rep.init : Rep init [] where
  marked := rfl
  valid _ := rfl
  fid _ _ h := by simp [taker, takings] at h
  scPassed k := by
    refine iff_of_false (by simp [AHash.init]) ?_
    rintro ⟨pre, w, f, r, d, hpre, -⟩
    simp at hpre

variable {h : AHash} {ops : List Op}

theorem Rep.owns_iff (hr : Rep h ops) (k : BitVec 32) (f : FlowID) :
    ((h.atomic_hash k).valid = true ∧ (h.atomic_hash k).fid = f) ↔ taker ops k = some f := by
  rw [hr.valid]
  rcases htaker : taker ops k with _ | g
  · simp
  · simp [hr.fid k g htaker]

theorem Rep.isMarked_iff (hr : Rep h ops) : h.isMarked = true ↔ (takings ops).length % 2 ^ 32 ≠ 0 := by
  unfold isMarked
  rw [hr.marked, decide_eq_true_iff, Ne, ← BitVec.toNat_inj]
  simp

/-- A micro-op that takes a slot. -/
theorem Rep.insert (hr : Rep h ops) {op : Op} {f : FlowID} {a : BitVec 32}
    (ht : taken (takings ops).length op = some (f, hash a)) (hsc : ∀ w f r d, op ≠ .ST_COND w f r d) :
    Rep (h.insert f a) (ops ++ [op]) := by
  have hpassed : ∀ k, Passed (ops ++ [op]) k ↔ Passed ops k := by
    intro k
    rw [passed_concat]
    exact or_iff_left fun ⟨w, f, r, d, hop, _⟩ => hsc w f r d hop
  refine ⟨?_, ?_, ?_, ?_⟩
  · rw [takings_concat, ht]
    simp [AHash.insert, hr.marked, BitVec.ofNat_add]
  · intro k
    rw [taker_concat, ht]
    by_cases hk : hash a = k
    · subst hk
      simp [AHash.insert]
    · simp [AHash.insert, hk, Function.update_of_ne (Ne.symm hk), hr.valid]
  · intro k g hg
    rw [taker_concat, ht] at hg
    by_cases hk : hash a = k
    · subst hk
      simpa [AHash.insert] using hg
    · simp only [hk, if_false] at hg
      simpa [AHash.insert, Function.update_of_ne (Ne.symm hk)] using hr.fid k g hg
  · intro k
    rw [hpassed, ← hr.scPassed]
    by_cases hk : hash a = k
    · subst hk
      simp [AHash.insert]
    · simp [AHash.insert, Function.update_of_ne (Ne.symm hk)]

/-- A micro-op that leaves the table alone. -/
theorem Rep.keep (hr : Rep h ops) {op : Op} (ht : taken (takings ops).length op = none)
    (hsc : ∀ w f r d, op = .ST_COND w f r d → taker ops (hash op.addr) ≠ some f) : Rep h (ops ++ [op]) := by
  have htaker : ∀ k, taker (ops ++ [op]) k = taker ops k := by
    intro k
    rw [taker_concat, ht]
  refine ⟨?_, ?_, ?_, ?_⟩
  · rw [takings_concat, ht, hr.marked]
    simp
  · intro k
    rw [htaker, hr.valid]
  · intro k g hg
    exact hr.fid k g (htaker k ▸ hg)
  · intro k
    rw [hr.scPassed, passed_concat]
    refine (or_iff_left ?_).symm
    rintro ⟨w, f, r, d, hop, rfl, hf⟩
    exact hsc w f r d hop hf

/-- The wider plain stores never meet the address that `OP_U32_ST_L` leaves out. -/
theorem plainAddr_U32_ne (src1 : BitVec 64) : plainAddr .U32 src1 ≠ 0xFFFFFFFF := by
  intro h
  have hbit := congrArg (fun x : BitVec 64 => x.getLsbD 0) h
  simp [plainAddr] at hbit

/-- An `ST_COND` that passes marks its slot, and nothing else. -/
theorem Rep.pass (hr : Rep h ops) {w : Width} {f : FlowID} {r d : BitVec 64}
    (ht : taker ops (hash (r.setWidth 32)) = some f) :
    Rep (h.setSC f (r.setWidth 32)).2 (ops ++ [.ST_COND w f r d]) := by
  unfold setSC
  rw [if_pos ((hr.owns_iff _ f).2 ht)]
  have htaker : ∀ k, taker (ops ++ [.ST_COND w f r d]) k = taker ops k := fun k => taker_concat ops _ k
  refine ⟨?_, ?_, ?_, ?_⟩
  · rw [takings_concat]
    simp [taken, hr.marked]
  · intro k
    rw [htaker, ← hr.valid]
    by_cases hk : hash (r.setWidth 32) = k
    · subst hk
      simp
    · simp [Function.update_of_ne (Ne.symm hk)]
  · intro k g hg
    rw [htaker] at hg
    rw [← hr.fid k g hg]
    by_cases hk : hash (r.setWidth 32) = k
    · subst hk
      simp
    · simp [Function.update_of_ne (Ne.symm hk)]
  · intro k
    rw [passed_concat]
    by_cases hk : hash (r.setWidth 32) = k
    · subst hk
      simp only [Function.update_self, true_iff]
      exact .inr ⟨w, f, r, d, rfl, rfl, ht⟩
    · simp only [Function.update_of_ne (Ne.symm hk), hr.scPassed]
      refine (or_iff_left ?_).symm
      rintro ⟨w', f', r', d', hop, hk', -⟩
      exact hk hk'

/-- **The table.** Every micro-op leaves it with what its run says. -/
theorem Rep.exec (hr : Rep h ops) (op : Op) : Rep (h.exec op).1 (ops ++ [op]) := by
  cases op with
  | ST w f r d =>
    have haddr : ¬(w = .U32 ∧ plainAddr w r = 0xFFFFFFFF) := by
      rintro ⟨rfl, hr⟩
      exact plainAddr_U32_ne r hr
    unfold AHash.exec
    simp only [haddr, if_false]
    by_cases hm : h.isMarked = true
    · rw [if_pos hm]
      refine hr.insert ?_ (by simp)
      simp only [taken, if_pos (hr.isMarked_iff.1 hm)]
      rfl
    · rw [if_neg hm]
      refine hr.keep ?_ (by simp)
      simp only [taken, if_neg (mt hr.isMarked_iff.2 hm)]
  | MARK_EX f r => exact hr.insert rfl (by simp)
  | ST_COND w f r d =>
    have howns := hr.owns_iff (hash (r.setWidth 32)) f
    by_cases ht : taker ops (hash (r.setWidth 32)) = some f
    · have hpass := hr.pass (w := w) (d := d) ht
      unfold AHash.exec setSC at *
      simp only [howns.2 ht, and_self, if_true] at *
      exact hpass
    · unfold AHash.exec setSC
      simp only [mt howns.1 ht, if_false]
      refine hr.keep rfl ?_
      rintro w' f' r' d' hop
      obtain ⟨-, rfl, -⟩ : w = w' ∧ f = f' ∧ r = r' ∧ d = d' := by simpa using hop
      exact ht
  | ST_CHECK_EX f r => exact hr.keep rfl (by simp)

theorem rep_after (ops : List Op) : Rep (after ops) ops := by
  induction ops using List.reverseRecOn with
  | nil => exact Rep.init
  | append_singleton ops op ih =>
    rw [after_concat]
    exact ih.exec op

/-- **Writing.** An `ST_COND` writes memory exactly when its flow was the last to take the slot. -/
theorem write_ST_COND (ops : List Op) (w : Width) (f : FlowID) (r d : BitVec 64) :
    (effect ops (.ST_COND w f r d)).write ≠ none ↔ taker ops (hash (Op.ST_COND w f r d).addr) = some f := by
  rw [← (rep_after ops).owns_iff]
  unfold effect AHash.exec setSC
  simp only [Op.addr]
  split <;> simp [*]

/-- **Reporting.** An `ST_CHECK_EX` sets the zero flag exactly when its flow was the last to take the
slot and some `ST_COND` passed there. -/
theorem icc_ST_CHECK_EX (ops : List Op) (f : FlowID) (r : BitVec 64) :
    (∃ icc, (effect ops (.ST_CHECK_EX f r)).icc = some icc ∧ ccZ icc ≠ 0) ↔
      taker ops (hash (Op.ST_CHECK_EX f r).addr) = some f ∧ Passed ops (hash (Op.ST_CHECK_EX f r).addr) := by
  have hcheck : (after ops).checkSC f (r.setWidth 32) = true ↔
      taker ops (hash (r.setWidth 32)) = some f ∧ Passed ops (hash (r.setWidth 32)) := by
    rw [← (rep_after ops).owns_iff, ← (rep_after ops).scPassed]
    simp only [checkSC, decide_eq_true_eq]
    tauto
  unfold effect AHash.exec
  simp only [Op.addr, Option.some.injEq, exists_eq_left', ← hcheck]
  split
  · rename_i h
    exact iff_of_true (by decide) h
  · rename_i h
    exact iff_of_false (by decide) h

/-! ## When they are atomic -/

/-- No flow takes a slot again after another one has written the address it had marked, unless
another one takes it after that; and what another flow writes takes the slot. -/
def NotRetaken (ops : List Op) : Prop := ∀ f a mark mid sc, Attempt ops f a mark mid sc → Interfered f a mark mid →
  taker (mark ++ mid) (hash a) ≠ some f

/-- Between an `ST_COND` and its `ST_CHECK_EX` the slot does not change hands, unless between
others, or to a flow that finds no trace of an `ST_COND` that passed. -/
def Undisturbed (ops : List Op) : Prop := ∀ f a pre mid sc ck, Checked ops f a pre mid sc ck →
  (taker pre (hash a) = some f → taker (pre ++ sc :: mid) (hash a) = some f) ∧
  (taker pre (hash a) ≠ some f → taker (pre ++ sc :: mid) (hash a) = some f → ¬Passed (pre ++ sc :: mid) (hash a))

theorem atomic_iff (ops : List Op) : Atomic ops ↔ NotRetaken ops := by
  have hwrite : ∀ f a mark mid sc, Attempt ops f a mark mid sc →
      ((effect (mark ++ mid) sc).write = none ↔ taker (mark ++ mid) (hash a) ≠ some f) := by
    intro f a mark mid sc h
    obtain ⟨⟨w, r, d, rfl⟩, haddr⟩ := h.conditional
    rw [← haddr, Ne, ← write_ST_COND, not_ne_iff]
  constructor
  · intro h f a mark mid sc hattempt hother
    exact (hwrite f a mark mid sc hattempt).1 (h f a mark mid sc hattempt hother)
  · intro h f a mark mid sc hattempt hother
    exact (hwrite f a mark mid sc hattempt).2 (h f a mark mid sc hattempt hother)

theorem reported_iff (ops : List Op) : Reported ops ↔ Undisturbed ops := by
  refine forall_congr' fun f => forall_congr' fun a => forall_congr' fun pre => forall_congr' fun mid =>
    forall_congr' fun sc => forall_congr' fun ck => imp_congr_right fun h => ?_
  obtain ⟨⟨w, r, d, rfl⟩, hsc⟩ := h.conditional
  obtain ⟨⟨r', rfl⟩, hck⟩ := h.check
  rw [icc_ST_CHECK_EX, write_ST_COND, hck, hsc]
  -- the `ST_COND` itself has passed when its flow had the slot
  have hpassed : taker pre (hash a) = some f → Passed (pre ++ .ST_COND w f r d :: mid) (hash a) := by
    intro ht
    exact ⟨pre, w, f, r, d, ⟨mid, by simp⟩, by rw [hsc], ht⟩
  tauto

/-- **Store-conditionals.** They are atomic, and report their outcome, exactly on the runs where no
reservation is taken back or lost between. -/
theorem storeConditional_iff (ops : List Op) : (Atomic ops ∧ Reported ops) ↔ (NotRetaken ops ∧ Undisturbed ops) := by
  rw [atomic_iff, reported_iff]

/-- Flow 1 marks `0x100`, flow 2 writes it, and flow 1 stores to `8`, which has the same slot. -/
def retaken : List Op := [.MARK_EX 1 0x100, .ST .U32 2 0x100 7, .ST .U32 1 8 0]

/-- Flow 1 marks and stores to `0x100`, and flow 2 marks `8` before the check. -/
def lost : List Op := [.MARK_EX 1 0x100, .ST_COND .U32 1 0x100 7, .MARK_EX 2 8]

/-- **Not atomic.** The `ST_COND` of flow 1 that follows the one overwrites what flow 2 wrote; the
`ST_CHECK_EX` that follows the other says that nothing was written. -/
theorem storeConditional_fails :
    ¬Atomic (retaken ++ [.ST_COND .U32 1 0x100 9]) ∧ ¬Reported (lost ++ [.ST_CHECK_EX 1 0x100]) := by
  constructor
  · intro h
    have hattempt : Attempt (retaken ++ [.ST_COND .U32 1 0x100 9]) 1 0x100 [.MARK_EX 1 0x100]
        [.ST .U32 2 0x100 7, .ST .U32 1 8 0] (.ST_COND .U32 1 0x100 9) :=
      ⟨⟨[], 0x100, rfl, by decide⟩, by simp, ⟨⟨.U32, 0x100, 9, rfl⟩, by decide⟩, List.prefix_rfl⟩
    have hother : Interfered 1 0x100 [.MARK_EX 1 0x100] [.ST .U32 2 0x100 7, .ST .U32 1 8 0] :=
      ⟨[], .ST .U32 2 0x100 7, [.ST .U32 1 8 0], rfl, by decide, ⟨0x100, .U32, 7⟩, by decide, by decide⟩
    have hnone := h 1 0x100 _ _ _ hattempt hother
    have hwrites := (write_ST_COND retaken .U32 1 0x100 9).2 (by decide)
    exact hwrites hnone
  · intro h
    have hchecked : Checked (lost ++ [.ST_CHECK_EX 1 0x100]) 1 0x100 [.MARK_EX 1 0x100] [.MARK_EX 2 8]
        (.ST_COND .U32 1 0x100 7) (.ST_CHECK_EX 1 0x100) :=
      ⟨⟨⟨.U32, 0x100, 7, rfl⟩, by decide⟩, by simp [Op.fid], ⟨⟨0x100, rfl⟩, by decide⟩, List.prefix_rfl⟩
    have hwrites := (write_ST_COND [.MARK_EX 1 0x100] .U32 1 0x100 7).2 (by decide)
    have hzero := (h 1 0x100 _ _ _ _ hchecked).2 hwrites
    have htaker := ((icc_ST_CHECK_EX lost 1 0x100).1 hzero).1
    exact absurd htaker (by decide)

end AHash

end Esesc.Emul
