import Mathlib.Data.Int.Basic
import Esesc.Suc.Pool
import Esesc.Mem.WakeUp

/-!
# Invalidation broadcasts (`simu/libcore/MRouter.cpp`, `MemRequest.{h,cpp}`)

`sendInvalidateAll` and `sendInvalidateOthers` create one request for each object above. The
first of them counts the answers that are still missing; the others are separate requests
without a parent. Each comes back to `doPushDown`, which counts the answer down on the
request that brings it and lets go of that request unless it still waits for answers.

Requests live in the pool here, named by their place in it.

* `broadcast_spec`: the requests that a broadcast creates, as the pool holds them.
* `acks_spec`: what processing each answer once, in any order, does to them.
* `broadcast_settled_iff`: after all answers the counter is 0 and every request is back in
  the pool exactly when one object was asked (up to the width of the counter).
-/

namespace Esesc.Mem

open Esesc.Suc

/-! ## Requests in the pool -/

/-- A `MemRequest` with the fields that tell where it is and whom it answers for. -/
structure Request extends MemRequest where
  currNode : ℕ
  parent : Option ℕ
  deriving Repr, DecidableEq

/-- The objects of `MemRequest::actPool`. -/
structure Requests where
  req : ℕ → Request
  pool : Pool

namespace Requests

variable (H : Requests)

def upd (r : ℕ) (f : Request → Request) : Requests := { H with req := Function.update H.req r (f (H.req r)) }

/-- `pending` is an `int16_t`. -/
def addPending (r : ℕ) (d : ℤ) : Requests := H.upd r fun q => { q with pending := Int.bmod (q.pending + d) (2 ^ 16) }

def setNextHop (r node : ℕ) : Requests := H.upd r fun q => { q with currNode := node }

/-- `create`, and what both `createInvalidate` set in the same way. The fields that they do not
set keep what the storage held. -/
def createInvalidateAt (m : ℕ) (addr : AddrType) (size : ℕ) (pending : ℤ) (capacityInvalidate : Bool) :
    Option (ℕ × Requests) :=
  H.pool.out.map fun (r, pool) =>
    (r, { H with pool := pool }.upd r fun q =>
      { q with addr := addr, type := .invalidate, homeNode := m, currNode := m, lineSize := size % 2 ^ 16
               pending := pending, prefetch := false, capInvalidate := capacityInvalidate, parent := none })

/-- `createInvalidate(m, naddr, size, capacityInvalidate)`. -/
def createInvalidate (m : ℕ) (naddr : AddrType) (size : ℕ) (capacityInvalidate : Bool) : Option (ℕ × Requests) :=
  H.createInvalidateAt m naddr size 1 capacityInvalidate

/-- `ireq->createInvalidate()`: a copy made where `ireq` is, which `ireq` counts. -/
def copyInvalidate (ireq : ℕ) : Option (ℕ × Requests) :=
  let q := H.req ireq
  (H.createInvalidateAt q.currNode q.addr q.lineSize 0 q.capInvalidate).map fun (r, H) => (r, H.addPending ireq 1)

/-- `decPending`. -/
def decPending (r : ℕ) : Requests := H.addPending ((H.req r).parent.getD r) (-1)

/-- `destroy`, with room for `fuel` calls: the request's own and that of its parent. -/
def destroy : ℕ → Requests → ℕ → Option Requests
  | 0, _, _ => none
  | fuel + 1, H, r =>
    if 0 < (H.req r).pending then some H
    else
      let parentDone := match (H.req r).parent with
        | some p => destroy fuel H p
        | none => some H
      parentDone.map fun H => { H with pool := H.pool.put r }

/-- `Cache::doPushDown` of an invalidate. A parent has no parent. -/
def ack (r : ℕ) : Option Requests := (H.decPending r).destroy 2 r

/-- Answers that are processed one after another. -/
def acks (H : Requests) (rs : List ℕ) : Option Requests := rs.foldlM ack H

end Requests

/-! ## `MRouter` -/

section Router

variable (k : CacheConfig) (lsize : ℕ) (naddr : AddrType) (capacityInvalidate : Bool)

/-- The loop of both broadcasts, over the objects that are asked. It returns the requests in
the order in which they are sent; where each goes is its `currNode`. -/
def broadcast : Requests → Option ℕ → List ℕ → Option (List ℕ × Requests)
  | H, _, [] => some ([], H)
  | H, ireq, up :: ups => do
    let (breq, H) ← match ireq with
      | none => H.createInvalidate k.self naddr lsize capacityInvalidate
      | some ireq => H.copyInvalidate ireq
    let (sent, H) ← broadcast (H.setNextHop breq up) (some (ireq.getD breq)) ups
    return (breq :: sent, H)

/-- The two broadcasts. -/
inductive Broadcast where
  /-- `sendInvalidateAll`. -/
  | all
  /-- `sendInvalidateOthers`, for a request with this home. -/
  | others (homeNode : ℕ)
  deriving Repr, DecidableEq

namespace Broadcast

/-- The objects that are asked. -/
def targets (k : CacheConfig) : Broadcast → List ℕ
  | .all => k.upNode
  | .others homeNode => if k.upNode.length ≤ 1 then [] else k.upNode.filter (· ≠ k.upMap homeNode)

def capacity : Broadcast → Bool
  | .all => true
  | .others _ => false

/-- `sendInvalidateAll(lsize, mreq, naddr, lat)` and `sendInvalidateOthers`. -/
def send (b : Broadcast) (H : Requests) : Option (List ℕ × Requests) :=
  broadcast k lsize naddr b.capacity H none (b.targets k)

end Broadcast

end Router

/-! ## What a broadcast creates -/

namespace Requests

variable {H H' : Requests} {r : ℕ}

@[simp] theorem upd_pool (f : Request → Request) : (H.upd r f).pool = H.pool := rfl
@[simp] theorem upd_self (f : Request → Request) : (H.upd r f).req r = f (H.req r) := Function.update_self _ _ _
theorem upd_of_ne (f : Request → Request) {x : ℕ} (hx : x ≠ r) : (H.upd r f).req x = H.req x :=
  Function.update_of_ne hx _ _

/-- `r` was taken from the pool of `H` and is `q` in `H'`, up to the field that is not set; the
requests in use are still in use and, but for `except`, as they were. -/
structure Made (H : Requests) (except : Option ℕ) (r : ℕ) (q : Request) (H' : Requests) : Prop where
  ok : H'.pool.Ok
  fresh : ¬H.pool.Live r
  live : H'.pool.Live r
  keep : ∀ x, H.pool.Live x → H'.pool.Live x
  self : { H'.req r with coreID := 0 } = q
  same : ∀ x, H.pool.Live x → except ≠ some x → H'.req x = H.req x

theorem createInvalidateAt_made (hH : H.pool.Ok) (m : ℕ) (addr : AddrType) (size : ℕ) (pending : ℤ) (cap : Bool) :
    ∃ r H', H.createInvalidateAt m addr size pending cap = some (r, H') ∧
      Made H none r { addr := addr, type := .invalidate, homeNode := m, currNode := m, lineSize := size % 2 ^ 16
                      pending := pending, capInvalidate := cap, parent := none } H' := by
  obtain ⟨r, p', hout, hok, hfresh, hlive, hkeep⟩ := Pool.out_spec hH
  refine ⟨r, _, by rw [createInvalidateAt, hout]; rfl, hok, hfresh, hlive, hkeep, ?_, ?_⟩
  · rw [upd_self]
  · intro x hx _
    have hxr : x ≠ r := fun e => hfresh (e ▸ hx)
    exact upd_of_ne _ hxr

/-- The request for `up` that is copied from `q`. -/
def copyOf (q : Request) (up : ℕ) : Request :=
  { q with homeNode := q.currNode, currNode := up, pending := 0, coreID := 0, prefetch := false }

theorem copyInvalidate_made {ireq : ℕ} (hH : H.pool.Ok) (hl : H.pool.Live ireq) (up : ℕ) {p : ℤ}
    (htype : (H.req ireq).type = .invalidate) (hparent : (H.req ireq).parent = none)
    (hsize : (H.req ireq).lineSize < 2 ^ 16) (hp : (H.req ireq).pending = Int.bmod p (2 ^ 16)) :
    ∃ r H', H.copyInvalidate ireq = some (r, H') ∧ Made H (some ireq) r (copyOf (H.req ireq) up) (H'.setNextHop r up) ∧
      r ≠ ireq ∧ (H'.setNextHop r up).req ireq = { H.req ireq with pending := Int.bmod (p + 1) (2 ^ 16) } := by
  obtain ⟨r, H', hc, hm⟩ := createInvalidateAt_made hH (H.req ireq).currNode (H.req ireq).addr
    (H.req ireq).lineSize 0 (H.req ireq).capInvalidate
  have hne : r ≠ ireq := fun e => hm.fresh (e ▸ hl)
  have hold : H'.req ireq = H.req ireq := hm.same ireq hl (by simp)
  refine ⟨r, H'.addPending ireq 1, by rw [copyInvalidate, hc]; rfl, ⟨hm.ok, hm.fresh, hm.live, hm.keep, ?_, ?_⟩,
    hne, ?_⟩
  · rw [setNextHop, upd_self, addPending, upd_of_ne _ hne]
    have hself := hm.self
    rw [Nat.mod_eq_of_lt hsize] at hself
    simp only [Request.mk.injEq, MemRequest.mk.injEq] at hself
    simp only [copyOf, Request.mk.injEq, MemRequest.mk.injEq, htype, hparent]
    tauto
  · intro x hx hxi
    have hxr : x ≠ r := fun e => hm.fresh (e ▸ hx)
    have hxi : x ≠ ireq := fun e => hxi (by rw [e])
    rw [setNextHop, upd_of_ne _ hxr, addPending, upd_of_ne _ hxi]
    exact hm.same x hx (by simp)
  · rw [setNextHop, upd_of_ne _ hne.symm, addPending, upd_self, hold, hp, Int.bmod_add_bmod]

/-- The copies `sent` of `ireq`, one for each of `ups`, and the answers that `ireq` then waits for. -/
structure Copied (H : Requests) (ireq : ℕ) (p : ℤ) (ups sent : List ℕ) (H' : Requests) : Prop where
  ok : H'.pool.Ok
  nodup : sent.Nodup
  fresh : ∀ r ∈ sent, ¬H.pool.Live r
  live : ∀ r ∈ sent, H'.pool.Live r
  keep : ∀ x, H.pool.Live x → H'.pool.Live x
  copies : List.Forall₂ (fun up r => { H'.req r with coreID := 0 } = copyOf (H.req ireq) up) ups sent
  carrier : H'.req ireq = { H.req ireq with pending := Int.bmod (p + ups.length) (2 ^ 16) }
  same : ∀ x, H.pool.Live x → x ≠ ireq → H'.req x = H.req x

variable (k : CacheConfig) (lsize : ℕ) (naddr : AddrType) (cap : Bool)

/-- **The loop**, once the first request exists. -/
theorem broadcast_copied {ireq : ℕ} (ups : List ℕ) (hH : H.pool.Ok) (hl : H.pool.Live ireq) {p : ℤ}
    (htype : (H.req ireq).type = .invalidate) (hparent : (H.req ireq).parent = none)
    (hsize : (H.req ireq).lineSize < 2 ^ 16) (hp : (H.req ireq).pending = Int.bmod p (2 ^ 16)) :
    ∃ sent H', broadcast k lsize naddr cap H (some ireq) ups = some (sent, H') ∧ Copied H ireq p ups sent H' := by
  induction ups generalizing H p with
  | nil =>
    refine ⟨[], H, rfl, hH, .nil, by simp, by simp, fun _ hx => hx, .nil, ?_, fun _ _ _ => rfl⟩
    rw [List.length_nil, Nat.cast_zero, Int.add_zero, ← hp]
  | cons up ups ih =>
    obtain ⟨r, H₁, hcopy, hm, hne, hcarrier⟩ := copyInvalidate_made hH hl up htype hparent hsize hp
    obtain ⟨sent, H', hrest, hc⟩ := ih hm.ok (hm.keep ireq hl) (p := p + 1) (by rw [hcarrier]; exact htype)
      (by rw [hcarrier]; exact hparent) (by rw [hcarrier]; exact hsize) (by rw [hcarrier])
    have hbroadcast : broadcast k lsize naddr cap H (some ireq) (up :: ups) = some (r :: sent, H') := by
      simp only [broadcast, hcopy, Option.bind_eq_bind, Option.bind_some, Option.getD_some, hrest]
      rfl
    -- the copy just made is in use when the others are made
    have hr : r ∉ sent := fun hmem => hc.fresh r hmem hm.live
    refine ⟨r :: sent, H', hbroadcast, hc.ok, List.nodup_cons.2 ⟨hr, hc.nodup⟩, ?_, ?_, ?_, ?_, ?_, ?_⟩
    · intro x hx
      rcases List.mem_cons.1 hx with rfl | hx
      · exact hm.fresh
      · exact fun hlive => hc.fresh x hx (hm.keep x hlive)
    · intro x hx
      rcases List.mem_cons.1 hx with rfl | hx
      · exact hc.keep x hm.live
      · exact hc.live x hx
    · exact fun x hx => hc.keep x (hm.keep x hx)
    · refine .cons ?_ ?_
      · rw [hc.same r hm.live hne]
        exact hm.self
      · have hcopies := hc.copies
        rw [hcarrier] at hcopies
        exact hcopies
    · rw [hc.carrier, hcarrier, List.length_cons, Nat.cast_succ, Int.add_assoc, Int.add_comm 1]
    · intro x hx hxi
      rw [hc.same x (hm.keep x hx) hxi]
      exact hm.same x hx fun e => hxi (Option.some.inj e).symm

/-- The request that counts the answers of a broadcast to `up` and `n` others. -/
def firstOf (k : CacheConfig) (lsize : ℕ) (naddr : AddrType) (cap : Bool) (up n : ℕ) : Request :=
  { addr := naddr, type := .invalidate, homeNode := k.self, currNode := up, lineSize := lsize % 2 ^ 16
    pending := Int.bmod (1 + n) (2 ^ 16), capInvalidate := cap, parent := none }

/-- The requests of a broadcast: `carrier` counts the answers, `copies` are the others. -/
structure Sent (k : CacheConfig) (lsize : ℕ) (naddr : AddrType) (cap : Bool) (up : ℕ) (ups : List ℕ)
    (carrier : ℕ) (copies : List ℕ) (H : Requests) : Prop where
  ok : H.pool.Ok
  nodup : (carrier :: copies).Nodup
  live : ∀ r ∈ carrier :: copies, H.pool.Live r
  first : { H.req carrier with coreID := 0 } = firstOf k lsize naddr cap up ups.length
  copies : List.Forall₂
    (fun u r => { H.req r with coreID := 0 } = copyOf (firstOf k lsize naddr cap up ups.length) u) ups copies

/-- **What a broadcast creates.** -/
theorem broadcast_spec (hH : H.pool.Ok) (up : ℕ) (ups : List ℕ) :
    ∃ carrier copies H', broadcast k lsize naddr cap H none (up :: ups) = some (carrier :: copies, H') ∧
      Sent k lsize naddr cap up ups carrier copies H' := by
  obtain ⟨r, H₁, hcreate, hm⟩ := createInvalidateAt_made hH k.self naddr lsize 1 cap
  have hfirst : (H₁.setNextHop r up).req r = { H₁.req r with currNode := up } := upd_self _
  have hself : { (H₁.setNextHop r up).req r with coreID := 0 } = firstOf k lsize naddr cap up 0 := by
    calc { (H₁.setNextHop r up).req r with coreID := 0 }
        = { { H₁.req r with coreID := 0 } with currNode := up } := by rw [hfirst]
      _ = firstOf k lsize naddr cap up 0 := by rw [hm.self]; rfl
  -- what the loop needs to know about the first request
  have htype : ((H₁.setNextHop r up).req r).type = .invalidate := congrArg (·.type) hself
  have hparent : ((H₁.setNextHop r up).req r).parent = none := congrArg (·.parent) hself
  have hpending : ((H₁.setNextHop r up).req r).pending = Int.bmod 1 (2 ^ 16) := congrArg (·.pending) hself
  have hsize : ((H₁.setNextHop r up).req r).lineSize < 2 ^ 16 := by
    rw [show ((H₁.setNextHop r up).req r).lineSize = lsize % 2 ^ 16 from congrArg (·.lineSize) hself]
    exact Nat.mod_lt _ (by decide)
  obtain ⟨copies, H', hrest, hc⟩ := broadcast_copied k lsize naddr cap (H := H₁.setNextHop r up) ups
    hm.ok hm.live htype hparent hsize hpending
  have hbroadcast : broadcast k lsize naddr cap H none (up :: ups) = some (r :: copies, H') := by
    simp only [broadcast, createInvalidate, hcreate, Option.bind_eq_bind, Option.bind_some, Option.getD_none, hrest]
    rfl
  have hr : r ∉ copies := fun hmem => hc.fresh r hmem hm.live
  refine ⟨r, copies, H', hbroadcast, hc.ok, List.nodup_cons.2 ⟨hr, hc.nodup⟩, ?_, ?_, ?_⟩
  · intro x hx
    rcases List.mem_cons.1 hx with rfl | hx
    · exact hc.keep x hm.live
    · exact hc.live x hx
  · calc { H'.req r with coreID := 0 }
        = { { (H₁.setNextHop r up).req r with coreID := 0 } with pending := Int.bmod (1 + ups.length) (2 ^ 16) } := by
          rw [hc.carrier]
      _ = firstOf k lsize naddr cap up ups.length := by rw [hself]; rfl
  · refine hc.copies.imp fun u x hx => ?_
    calc { H'.req x with coreID := 0 }
        = copyOf { (H₁.setNextHop r up).req r with coreID := 0 } u := hx
      _ = copyOf (firstOf k lsize naddr cap up ups.length) u := by rw [hself]; simp only [copyOf, firstOf]

/-- The requests of a broadcast are those that the cache's own model lists. -/
theorem Sent.invalidates {up : ℕ} {ups : List ℕ} {carrier : ℕ} {copies : List ℕ}
    (hs : Sent k lsize naddr cap up ups carrier copies H) (hn : ups.length + 1 < 2 ^ 15) :
    ((carrier :: copies).map fun r =>
        Action.invalidate (H.req r).currNode { (H.req r).toMemRequest with coreID := 0 }) =
      Cache.invalidates k lsize naddr cap (up :: ups) := by
  have hfirst : firstOf k lsize naddr cap up ups.length =
      { firstOf k lsize naddr cap up ups.length with pending := 1 + ups.length } := by
    have : Int.bmod (1 + ups.length) (2 ^ 16) = 1 + ups.length := Int.bmod_eq_of_le (by omega) (by omega)
    simp only [firstOf, this]
  have hview : ∀ {q q' : Request}, { q with coreID := 0 } = q' →
      Action.invalidate q.currNode { q.toMemRequest with coreID := 0 } = .invalidate q'.currNode q'.toMemRequest := by
    rintro q _ rfl
    rfl
  rw [List.map_cons, hview hs.first, hfirst, Cache.invalidates]
  refine congrArg₂ _ rfl (List.forall₂_eq_eq_eq ▸ ?_)
  rw [List.forall₂_map_left_iff, List.forall₂_map_right_iff]
  refine hs.copies.flip.imp fun r u hr => ?_
  rw [hview hr, hfirst]
  rfl

/-! ## The answers -/

/-- An answer carried by a request without a parent. -/
theorem ack_eq (hparent : (H.req r).parent = none) :
    H.ack r = some { H.addPending r (-1) with
      pool := if 0 < Int.bmod ((H.req r).pending - 1) (2 ^ 16) then H.pool else H.pool.put r } := by
  have hdec : H.decPending r = H.addPending r (-1) := by rw [decPending, hparent, Option.getD_none]
  have hpending : ((H.addPending r (-1)).req r).pending = Int.bmod ((H.req r).pending - 1) (2 ^ 16) := by
    rw [addPending, upd_self]
    rfl
  have hparent' : ((H.addPending r (-1)).req r).parent = none := by rw [addPending, upd_self, hparent]
  simp only [ack, hdec, destroy, hpending, hparent', Option.map_some]
  split <;> rfl

/-- **Every answer is processed once, in any order.** Each request counts its own answer down,
and is back in the pool unless it then still waits. -/
theorem acks_spec (rs : List ℕ) (hd : rs.Nodup) (hparent : ∀ r ∈ rs, (H.req r).parent = none) :
    ∃ H', H.acks rs = some H' ∧
      (∀ r ∈ rs, (H'.req r).pending = Int.bmod ((H.req r).pending - 1) (2 ^ 16) ∧
        H'.pool.first.count r = H.pool.first.count r + if 0 < (H'.req r).pending then 0 else 1) ∧
      ∀ x, x ∉ rs → H'.req x = H.req x ∧ H'.pool.first.count x = H.pool.first.count x := by
  induction rs generalizing H with
  | nil => exact ⟨H, rfl, by simp, fun _ _ => ⟨rfl, rfl⟩⟩
  | cons r rs ih =>
    obtain ⟨hr, hd⟩ := List.nodup_cons.1 hd
    have hack := ack_eq (hparent r List.mem_cons_self)
    set H₁ : Requests := { H.addPending r (-1) with
      pool := if 0 < Int.bmod ((H.req r).pending - 1) (2 ^ 16) then H.pool else H.pool.put r } with hH₁
    have hself : H₁.req r = { H.req r with pending := Int.bmod ((H.req r).pending - 1) (2 ^ 16) } :=
      Function.update_self r _ H.req
    have hother : ∀ x, x ≠ r → H₁.req x = H.req x := fun x hx => Function.update_of_ne hx _ H.req
    have hcount : ∀ x, H₁.pool.first.count x = H.pool.first.count x +
        if x = r then if 0 < (H₁.req r).pending then 0 else 1 else 0 := by
      intro x
      rw [hself, hH₁]
      simp only
      split
      · split <;> rfl
      · rw [Pool.count_put]
        simp only [eq_comm]
    have hmem : ∀ x ∈ rs, x ≠ r := fun x hx e => hr (e ▸ hx)
    obtain ⟨H', hacks, hin, hout⟩ := ih hd fun x hx => by
      rw [hother x (hmem x hx)]
      exact hparent x (List.mem_cons_of_mem r hx)
    refine ⟨H', ?_, ?_, ?_⟩
    · rw [acks, List.foldlM_cons, hack]
      exact hacks
    · -- the first of them is not acknowledged again, and the first call counts for no other
      intro x hx
      rcases List.mem_cons.1 hx with rfl | hx
      · obtain ⟨hreq, hc⟩ := hout x hr
        rw [hreq, hc, hcount x, if_pos rfl, hself]
        exact ⟨rfl, rfl⟩
      · obtain ⟨hp, hc⟩ := hin x hx
        rw [hc, hp, hcount x, if_neg (hmem x hx), hother x (hmem x hx)]
        exact ⟨rfl, rfl⟩
    · intro x hx
      obtain ⟨hxr, hxrs⟩ := not_or.1 (fun h => hx (List.mem_cons.2 h))
      obtain ⟨hreq, hc⟩ := hout x hxrs
      rw [hreq, hc, hcount x, if_neg hxr]
      exact ⟨hother x hxr, rfl⟩

end Requests

/-- All is settled: no answer is missing, and every request of the broadcast was returned once. -/
def Requests.Settled (H : Requests) (carrier : ℕ) (copies : List ℕ) : Prop :=
  (H.req carrier).pending = 0 ∧ ∀ r ∈ carrier :: copies, H.pool.first.count r = 1

section Settled

open Requests

variable {k : CacheConfig} {lsize : ℕ} {naddr : AddrType} {cap : Bool}

theorem Requests.Sent.forall_copies {H : Requests} {up : ℕ} {ups : List ℕ} {carrier : ℕ} {copies : List ℕ}
    (hs : Sent k lsize naddr cap up ups carrier copies H) :
    ∀ r ∈ copies, (H.req r).pending = 0 ∧ (H.req r).parent = none := by
  have hcopies := hs.copies
  have hparent : (firstOf k lsize naddr cap up ups.length).parent = none := rfl
  clear hs
  generalize firstOf k lsize naddr cap up ups.length = q at hcopies hparent
  induction hcopies with
  | nil => simp
  | cons hr _ ih =>
    intro x hx
    rcases List.mem_cons.1 hx with rfl | hx
    · exact ⟨congrArg (·.pending) hr, (congrArg (·.parent) hr).trans hparent⟩
    · exact ih x hx

/-- The answers to a broadcast settle it exactly when the counter, one less than the number of
requests, has come round to 0. -/
theorem Requests.Sent.settled_iff {H : Requests} {up : ℕ} {ups : List ℕ} {carrier : ℕ} {copies order : List ℕ}
    (hs : Sent k lsize naddr cap up ups carrier copies H) (horder : order.Perm (carrier :: copies)) :
    ∃ H', H.acks order = some H' ∧ (H'.Settled carrier copies ↔ (ups.length + 1) % 2 ^ 16 = 1) := by
  have hcarrier : (H.req carrier).parent = none := congrArg (·.parent) hs.first
  have hcount : (H.req carrier).pending = Int.bmod (1 + ups.length) (2 ^ 16) := by
    have hfirst := congrArg (·.pending) hs.first
    simpa only [firstOf] using hfirst
  have hparent : ∀ r ∈ order, (H.req r).parent = none := by
    intro r hr
    rcases List.mem_cons.1 (horder.mem_iff.1 hr) with rfl | hr
    · exact hcarrier
    · exact (hs.forall_copies r hr).2
  obtain ⟨H', hacks, hin, -⟩ := acks_spec order (horder.nodup_iff.2 hs.nodup) hparent
  have hend : ∀ r ∈ carrier :: copies, (H'.req r).pending = Int.bmod ((H.req r).pending - 1) (2 ^ 16) ∧
      H'.pool.first.count r = if 0 < (H'.req r).pending then 0 else 1 := by
    intro r hr
    obtain ⟨hp, hc⟩ := hin r (horder.mem_iff.2 hr)
    rw [(hs.live r hr).count, Nat.zero_add] at hc
    exact ⟨hp, hc⟩
  refine ⟨H', hacks, ?_⟩
  obtain ⟨hp, hc⟩ := hend carrier List.mem_cons_self
  have hpn : (H'.req carrier).pending = Int.bmod ups.length (2 ^ 16) := by
    rw [hp, hcount, Int.sub_eq_add_neg, Int.bmod_add_bmod]
    congr 1
    omega
  have hiff : (H'.req carrier).pending = 0 ↔ (ups.length + 1) % 2 ^ 16 = 1 := by
    rw [hpn, ← Int.dvd_iff_bmod_eq_zero]
    omega
  rw [← hiff]
  refine ⟨fun hset => hset.1, fun h0 => ⟨h0, ?_⟩⟩
  intro r hr
  rcases List.mem_cons.1 hr with rfl | hr
  · rw [hc, h0]
    rfl
  · obtain ⟨hp, hc⟩ := hend r (List.mem_cons_of_mem _ hr)
    rw [hc, hp, (hs.forall_copies r hr).1]
    rfl

/-- **The broadcast's accounting.** Whatever the pool and whoever is asked, the requests are sent,
and when each has come back once, in any order, the counter is 0 and every request is in
the pool exactly once if and only if one object was asked, or that many more as an
`int16_t` counter does not see. -/
theorem broadcast_settled_iff (k : CacheConfig) (lsize : ℕ) (naddr : AddrType) (b : Broadcast) (H : Requests)
    (hH : H.pool.Ok) (hn : b.targets k ≠ []) :
    ∃ carrier copies H₁, b.send k lsize naddr H = some (carrier :: copies, H₁) ∧
      copies.length + 1 = (b.targets k).length ∧
      ∀ order : List ℕ, order.Perm (carrier :: copies) →
        ∃ H₂, H₁.acks order = some H₂ ∧ (H₂.Settled carrier copies ↔ (b.targets k).length % 2 ^ 16 = 1) := by
  obtain ⟨up, ups, hups⟩ := List.exists_cons_of_ne_nil hn
  obtain ⟨carrier, copies, H₁, hsend, hs⟩ := broadcast_spec k lsize naddr b.capacity hH up ups
  refine ⟨carrier, copies, H₁, by rw [Broadcast.send, hups, hsend], ?_, ?_⟩
  · rw [hups, List.length_cons, hs.copies.length_eq]
  · intro order horder
    rw [hups, List.length_cons]
    exact hs.settled_iff horder

/-- A cache below two others. -/
def belowTwo : CacheConfig := { smallL1 with self := 2, upNode := [0, 1], upMap := id }

/-- A cache below one other. -/
def belowOne : CacheConfig := { smallL1 with self := 2, upNode := [0], upMap := fun _ => 0 }

/-- Nothing in use yet. -/
def noRequests : Requests := ⟨fun _ => ⟨⟨0, .read, 0, 0, 0, false, false, 0⟩, 0, none⟩, .new 256⟩

theorem broadcast_settled_iff_one :
    noRequests.pool.Ok ∧ Broadcast.all.targets belowOne ≠ [] ∧
      ∃ carrier H₁, Broadcast.all.send belowOne 64 0x1000 noRequests = some ([carrier], H₁) ∧
        ∃ H₂, H₁.acks [carrier] = some H₂ ∧ H₂.Settled carrier [] := by
  have hok : noRequests.pool.Ok := Pool.new_ok (by decide)
  obtain ⟨carrier, copies, H₁, hsend, hlen, hall⟩ := broadcast_settled_iff belowOne 64 0x1000 .all noRequests hok
    (by decide)
  obtain rfl : copies = [] := by simpa [Broadcast.targets, belowOne] using hlen
  obtain ⟨H₂, hacks, hiff⟩ := hall [carrier] (List.Perm.refl _)
  exact ⟨hok, by decide, carrier, H₁, hsend, H₂, hacks, hiff.2 (by decide)⟩

/-- With two objects above, the request that counts the answers counts only the one that it
brings itself: it is left waiting, and never returned. -/
theorem broadcast_two_leaks :
    ∃ H₁ H₂, Broadcast.all.send belowTwo 64 0x1000 noRequests = some ([255, 254], H₁) ∧
      H₁.acks [255, 254] = some H₂ ∧ (H₂.req 255).pending = 1 ∧
      H₂.pool.first.count 255 = 0 ∧ ¬H₂.Settled 255 [254] := by
  have hrun : ((Broadcast.all.send belowTwo 64 0x1000 noRequests).any fun p =>
      decide (p.1 = [255, 254]) && ((p.2.acks [255, 254]).any fun H₂ =>
        decide ((H₂.req 255).pending = 1 ∧ H₂.pool.first.count 255 = 0))) = true := by decide +kernel
  obtain ⟨⟨rs, H₁⟩, hsend, hrun⟩ := (Option.any_eq_true _ _).1 hrun
  obtain ⟨hrs, hacked⟩ := Bool.and_eq_true_iff.1 hrun
  obtain rfl : rs = [255, 254] := of_decide_eq_true hrs
  obtain ⟨H₂, hacks, hd⟩ := (Option.any_eq_true _ _).1 hacked
  obtain ⟨hp, hc⟩ := of_decide_eq_true hd
  refine ⟨H₁, H₂, hsend, hacks, hp, hc, fun hset => ?_⟩
  rw [hset.1] at hp
  exact absurd hp (by decide)

end Settled

end Esesc.Mem
