import Esesc.Core.Resources

/-!
# Store sets

`StoreSet` predicts which loads and stores depend on each other. `SSIT` gives a PC its set, and
`LFST` holds the last instruction fetched of each set, behind which the next one is linked. The
tables are rewritten by violations and merges while instructions of their sets are in flight.

* `Rewrite.apply`: what creates, merges and clears sets.
* `canIssue_storeset`, `called_storeset`: what a unit does to the tables.
* `Tracks`: every instruction in `LFST` is in flight and has not executed.
* `storeSets_consistent_iff`: the runs on which this holds.
-/

namespace Esesc.Core

open Esesc.Lib InFlight

/-! ## Creating, merging and clearing -/

namespace StoreSet

variable (size : ℕ)

def set_SSID (ss : StoreSet) (PC SSID : ℕ) : StoreSet :=
  { ss with SSIT := Function.update ss.SSIT (hashPC size PC) (some SSID) }

/-- The next identifier, and what is left in `rnd`, which the store sets of all cores share. -/
def create_id (rnd : ℕ) : ℕ × ℕ := if rnd < size then (rnd, rnd + 1) else (0, 0)

def create_set (rnd : ℕ) (ss : StoreSet) (PC : ℕ) : ℕ × StoreSet :=
  let SSID := (create_id size rnd).1
  (SSID, { ss.set_SSID size PC SSID with LFST := Function.update ss.LFST SSID none })

def stldViolation (rnd : ℕ) (ss : StoreSet) (ld_SSID : Option ℕ) (ld_pc st_pc : ℕ) : StoreSet :=
  let (ld_SSID, ss) := match ld_SSID with
    | some SSID => (SSID, ss)
    | none => create_set size rnd ss ld_pc
  ss.set_SSID size st_pc ld_SSID

def mergeset (ss : StoreSet) (id1 id2 : ℕ) : StoreSet :=
  if id1 = id2 then ss
  else
    let newid := if id1 < id2 then id1 else id2
    { SSIT := fun h => if ss.SSIT h = some id1 ∨ ss.SSIT h = some id2 then some newid else ss.SSIT h
      LFST := Function.update (Function.update ss.LFST id1 none) id2 none }

/-- What rewrites the tables, with the value of `rnd` where a set is created. -/
inductive Rewrite
  | create_set (rnd PC : ℕ)
  | stldViolation (rnd : ℕ) (ld_SSID : Option ℕ) (ld_pc st_pc : ℕ)
  | mergeset (id1 id2 : ℕ)
  | clearStoreSetsTimer

def Rewrite.apply (ss : StoreSet) : Rewrite → StoreSet
  | create_set rnd PC => (ss.create_set size rnd PC).2
  | stldViolation rnd ld_SSID ld_pc st_pc => ss.stldViolation size rnd ld_SSID ld_pc st_pc
  | mergeset id1 id2 => ss.mergeset id1 id2
  | clearStoreSetsTimer => .init

end StoreSet

namespace Machine

open FU StoreSet

variable (k : CpuConfig)

/-- The violations are those of instructions, with the SSID these have; the merges are of valid SSIDs. -/
def Called (m : Machine) : Rewrite → Prop
  | .create_set _ _ | .clearStoreSetsTimer => True
  | .stldViolation _ ld_SSID _ _ => ∃ i, ld_SSID = (m.clusters.placed i).SSID
  | .mergeset id1 id2 => id1 < k.StoreSetSize ∧ id2 < k.StoreSetSize

/-- The tables of the store set are rewritten by its functions only. -/
def Rewritten (m : Machine) : Event → Prop
  | .storeset ss => ∃ w, m.Called k w ∧ ss = w.apply k.StoreSetSize m.clusters.storeset
  | _ => True

/-- **Consistent.** Every entry of `SSIT` is invalid or in range; every instruction in `LFST` has been
inserted there, is in flight and has not executed; and no instruction that comes is linked behind another. -/
structure Consistent (m : Machine) : Prop where
  range : ∀ h < k.StoreSetSize, ∀ SSID, m.clusters.storeset.SSIT h = some SSID → SSID < k.StoreSetSize
  pending : ∀ SSID i, m.clusters.storeset.LFST SSID = some i →
    (m.clusters.placed i).SSID = some SSID ∧ i ∈ m.inFlight ∧ (m.proc.core.insts i).executed = false
  link : ∀ t a i, (m.clusters.canIssue k (m.ask t) a).lfs = some i →
    i ∈ m.inFlight ∧ (m.proc.core.insts i).executed = false

/-- No store-conditional or load-linked executes while it is the last instruction of its set. -/
def Replaced (m : Machine) : Event → Prop
  | .fire i => (m.proc.core.insts i).cb = some .executed →
    (m.proc.core.insts i).inst.opcode = .iSALU_LL ∨ (m.proc.core.insts i).inst.opcode = .iSALU_SC →
    ∀ SSID, (m.clusters.placed i).SSID = some SSID → m.clusters.storeset.LFST SSID ≠ some i
  | _ => True

/-! ## The tables -/

section Tables

variable {size : ℕ} {ss : StoreSet}

theorem create_id_lt {rnd : ℕ} (h : 0 < size) : (create_id size rnd).1 < size := by
  unfold create_id
  split
  · assumption
  · exact h

theorem hashPC_lt (PC : ℕ) (h : 0 < size) : hashPC size PC < size := by
  have : hashPC size PC ≤ size - 1 := Nat.and_le_right
  omega

/-- What the entries of `SSIT` may be. -/
def InRange (size : ℕ) (ss : StoreSet) : Prop := ∀ h < size, ∀ SSID, ss.SSIT h = some SSID → SSID < size

theorem InRange.set_SSID (h : InRange size ss) {SSID : ℕ} (hid : 0 < size → SSID < size) (PC : ℕ) :
    InRange size (ss.set_SSID size PC SSID) := by
  intro x hx id hid'
  simp only [StoreSet.set_SSID, Function.update_apply] at hid'
  split at hid'
  · obtain rfl := Option.some.inj hid'
    exact hid (by omega)
  · exact h x hx id hid'

/-- Rewriting keeps the entries in range. -/
theorem InRange.apply (h : InRange size ss) (w : Rewrite)
    (hid : ∀ rnd SSID ld_pc st_pc, w = .stldViolation rnd (some SSID) ld_pc st_pc → 0 < size → SSID < size)
    (hmerge : ∀ id1 id2, w = .mergeset id1 id2 → id1 < size ∧ id2 < size) : InRange size (w.apply size ss) := by
  cases w with
  | create_set rnd PC => exact h.set_SSID create_id_lt PC
  | stldViolation rnd ld_SSID ld_pc st_pc =>
    cases ld_SSID with
    | some SSID => exact h.set_SSID (hid rnd SSID ld_pc st_pc rfl) st_pc
    | none =>
      have hset : InRange size (ss.create_set size rnd ld_pc).2 := h.set_SSID create_id_lt ld_pc
      exact hset.set_SSID create_id_lt st_pc
  | mergeset id1 id2 =>
    obtain ⟨h1, h2⟩ := hmerge id1 id2 rfl
    intro x hx SSID hs
    simp only [Rewrite.apply, mergeset] at hs
    split at hs
    · exact h x hx SSID hs
    · dsimp only at hs
      split at hs
      · obtain rfl := Option.some.inj hs
        split <;> assumption
      · exact h x hx SSID hs
  | clearStoreSetsTimer =>
    intro x hx SSID hs
    cases hs

theorem update_none {f : ℕ → Option ℕ} {a b i : ℕ} (h : Function.update f a none b = some i) : f b = some i := by
  rw [Function.update_apply] at h
  split at h
  · cases h
  · exact h

/-- Rewriting only takes instructions out. -/
theorem apply_LFST (w : Rewrite) {SSID i : ℕ} (h : (w.apply size ss).LFST SSID = some i) : ss.LFST SSID = some i := by
  cases w with
  | create_set rnd PC => exact update_none h
  | stldViolation rnd ld_SSID ld_pc st_pc =>
    cases ld_SSID with
    | some id => exact h
    | none => exact update_none h
  | mergeset id1 id2 =>
    simp only [Rewrite.apply, mergeset] at h
    split at h
    · exact h
    · exact update_none (update_none h)
  | clearStoreSetsTimer => cases h

theorem remove_SSIT (id : Option ℕ) (i : ℕ) : (ss.remove id i).SSIT = ss.SSIT := by
  unfold StoreSet.remove
  split
  · rfl
  · split <;> rfl

/-- An instruction takes itself out, and no other. -/
theorem remove_LFST {id : Option ℕ} {i j SSID : ℕ} (h : (ss.remove id i).LFST SSID = some j) :
    ss.LFST SSID = some j ∧ ¬(j = i ∧ id = some SSID) := by
  unfold StoreSet.remove at h
  split at h
  · exact ⟨h, by simp⟩
  · rename_i id
    split at h
    · refine ⟨update_none h, ?_⟩
      rintro ⟨-, hid⟩
      obtain rfl := Option.some.inj hid
      simp at h
    · rename_i hne
      refine ⟨h, ?_⟩
      rintro ⟨rfl, hid⟩
      obtain rfl := Option.some.inj hid
      exact hne h

end Tables

/-! ## The units -/

/-- The unit of the instruction inserts it. -/
def inserts (inst : Instruction) : Bool :=
  match buildUnit k inst.opcode with
  | .Load => true
  | .Store => !inst.isStoreAddress
  | _ => false

/-- The unit of the instruction takes it out when it executes. -/
def removes (inst : Instruction) : Bool :=
  match buildUnit k inst.opcode with
  | .Load | .SCOORELoad => true
  | .Store | .SCOOREStore => inst.isStore
  | _ => false

variable {k} {m m' : Machine} {e : Event} {i : ℕ}

/-- **The mismatch.** What is inserted and not taken out is a load-linked or a store-conditional. -/
theorem removes_of_inserts {inst : Instruction} (hi : inserts k inst = true)
    (hne : ¬(inst.opcode = .iSALU_LL ∨ inst.opcode = .iSALU_SC)) : removes k inst = true := by
  unfold inserts at hi
  unfold removes
  have hstore : buildUnit k inst.opcode = .Store → inst.isStoreAddress = false → inst.isStore = true := by
    intro hu haddr
    unfold buildUnit at hu
    unfold Instruction.isStoreAddress at haddr
    unfold Instruction.isStore
    cases hop : inst.opcode <;> simp_all
    split_ifs at hu
  cases hu : buildUnit k inst.opcode <;> rw [hu] at hi <;> simp_all

/-- **Issuing** inserts the instruction, or leaves the tables alone. -/
theorem canIssue_storeset (x : Ask) (a : Arriving) (r : Clusters) :
    ((r.canIssue k x a).lfs = none ∧ (r.canIssue k x a).clusters.storeset = r.storeset ∧
        (r.canIssue k x a).clusters.placed = r.placed) ∨
      ((r.canIssue k x a).sc = .NoStall ∧ inserts k a.fetched.inst = true ∧
        (r.canIssue k x a).lfs = (speculate k x a r).1 ∧
        (r.canIssue k x a).clusters.storeset = (speculate k x a r).2.storeset ∧
        (r.canIssue k x a).clusters.placed = (speculate k x a r).2.placed) := by
  unfold Clusters.canIssue inserts
  split_ifs
  · exact .inl ⟨rfl, rfl, rfl⟩
  · exact .inl ⟨rfl, rfl, rfl⟩
  · cases hu : buildUnit k a.fetched.inst.opcode
    case RALU =>
      refine .inl ?_
      simp only [FU.canIssue, issueRALU]
      split_ifs <;> exact ⟨rfl, rfl, rfl⟩
    case Branch =>
      refine .inl ?_
      simp only [FU.canIssue, issueBranch]
      split_ifs <;> exact ⟨rfl, rfl, rfl⟩
    case Load =>
      simp only [FU.canIssue, takeEntry]
      split_ifs
      · exact .inl ⟨rfl, rfl, rfl⟩
      · exact .inr ⟨rfl, trivial, rfl, rfl, rfl⟩
    case Store =>
      simp only [FU.canIssue, takeEntry]
      split_ifs with haddr hfree
      · exact .inl ⟨rfl, rfl, rfl⟩
      · exact .inl ⟨rfl, rfl, rfl⟩
      · exact .inr ⟨rfl, by simp [haddr], rfl, rfl, rfl⟩
    case Load_noMemSpec =>
      refine .inl ?_
      simp only [FU.canIssue, takeEntry]
      split_ifs <;> exact ⟨rfl, rfl, rfl⟩
    case Store_noMemSpec =>
      refine .inl ?_
      simp only [FU.canIssue, takeEntry]
      split_ifs <;> exact ⟨rfl, rfl, rfl⟩
    all_goals exact .inl ⟨rfl, rfl, rfl⟩

/-- **A callback** takes its instruction out when it executes. -/
theorem called_storeset (m : Machine) (i : ℕ) :
    (m.called k i).placed = m.clusters.placed ∧
      (m.called k i).storeset =
        if (m.proc.core.insts i).cb = some .executed ∧ removes k (m.proc.core.insts i).inst = true then
          m.clusters.storeset.remove (m.clusters.placed i).SSID i
        else m.clusters.storeset := by
  unfold called removes
  rcases (m.proc.core.insts i).cb with _ | cb
  · exact ⟨rfl, rfl⟩
  · cases cb with
    | select => exact ⟨rfl, rfl⟩
    | executing =>
      simp only [Clusters.executing]
      split <;> exact ⟨rfl, rfl⟩
    | executed =>
      simp only [Clusters.executed, true_and]
      cases buildUnit k (m.proc.core.insts i).inst.opcode <;> simp only [FU.executed] <;> split_ifs <;> split <;>
        first | exact ⟨rfl, rfl⟩ | simp_all

/-! ## What the tables hold -/

/-- Every entry is in range, and every instruction in `LFST` will take itself out. -/
structure Tracks (k : CpuConfig) (m : Machine) : Prop where
  range : InRange k.StoreSetSize m.clusters.storeset
  SSID : 0 < k.StoreSetSize → ∀ i SSID, (m.clusters.placed i).SSID = some SSID → SSID < k.StoreSetSize
  pending : ∀ SSID i, m.clusters.storeset.LFST SSID = some i →
    (m.clusters.placed i).SSID = some SSID ∧ i ∈ m.inFlight ∧ (m.proc.core.insts i).executed = false ∧
      inserts k (m.proc.core.insts i).inst = true

theorem tracks_init (kind : GProcessor.Kind) : Tracks k (init k kind) := by
  refine ⟨?_, ?_, ?_⟩
  · intro h _ SSID hs
    cases hs
  · intro _ i SSID hs
    cases hs
  · intro SSID i hs
    cases hs

theorem Tracks.consistent (h : Tracks k m) : Consistent k m := by
  have hpending : ∀ SSID i, m.clusters.storeset.LFST SSID = some i →
      i ∈ m.inFlight ∧ (m.proc.core.insts i).executed = false := by
    intro SSID i hi
    obtain ⟨-, hmem, hex, -⟩ := h.pending SSID i hi
    exact ⟨hmem, hex⟩
  refine ⟨h.range, fun SSID i hi => ?_, fun t a i hi => ?_⟩
  · obtain ⟨hid, hmem, hex, -⟩ := h.pending SSID i hi
    exact ⟨hid, hmem, hex⟩
  · rcases canIssue_storeset (k := k) (m.ask t) a m.clusters with ⟨hnone, -, -⟩ | ⟨-, -, hlfs, -, -⟩
    · rw [hnone] at hi
      cases hi
    · rw [hlfs] at hi
      unfold speculate StoreSet.insert at hi
      dsimp only at hi
      split at hi
      · cases hi
      · exact hpending _ i hi

/-- A step that leaves the tables and the instructions where they are. -/
theorem Tracks.keep (h : Tracks k m) (hs : m'.clusters.storeset = m.clusters.storeset)
    (hp : ∀ j, (m'.clusters.placed j).SSID = (m.clusters.placed j).SSID) (hc : m'.proc.core = m.proc.core)
    (hl : ∀ j ∈ m.inFlight, (m.proc.core.insts j).executed = false → j ∈ m'.inFlight) : Tracks k m' := by
  refine ⟨by rw [hs]; exact h.range, fun hsize i SSID hi => h.SSID hsize i SSID (hp i ▸ hi), fun SSID i hi => ?_⟩
  rw [hs] at hi
  obtain ⟨hid, hmem, hex, hins⟩ := h.pending SSID i hi
  rw [hp, hc]
  exact ⟨hid, hl i hmem hex, hex, hins⟩

/-- What `speculate` does to the tables, for an instruction that becomes number `i`. -/
theorem speculate_cases (x : Ask) (a : Arriving) (r : Clusters) :
    ((speculate k x a r).2.storeset = r.storeset ∧ ((speculate k x a r).2.placed x.i).SSID = none) ∨
      ∃ SSID, r.storeset.SSIT (hashPC k.StoreSetSize a.fetched.pc) = some SSID ∧
        (speculate k x a r).2.storeset = { r.storeset with LFST := Function.update r.storeset.LFST SSID (some x.i) } ∧
        ((speculate k x a r).2.placed x.i).SSID = some SSID := by
  unfold speculate StoreSet.insert
  cases r.storeset.SSIT (hashPC k.StoreSetSize a.fetched.pc) with
  | none => exact .inl ⟨rfl, by simp⟩
  | some SSID => exact .inr ⟨SSID, rfl, rfl, by simp⟩

theorem speculate_placed (x : Ask) (a : Arriving) (r : Clusters) {j : ℕ} (hj : j ≠ x.i) :
    (speculate k x a r).2.placed j = r.placed j := by
  unfold speculate
  dsimp only
  rw [Function.update_of_ne hj]

theorem addInst_storeset (r : Clusters) (i : ℕ) (a : Arriving) :
    (r.addInst i a).storeset = r.storeset ∧ ∀ j, ((r.addInst i a).placed j).SSID = (r.placed j).SSID := by
  have hat : ∀ j, ((Function.update r.placed i { r.placed i with cluster := a.cluster, performed := false }) j).SSID =
      (r.placed j).SSID := by
    intro j
    rw [Function.update_apply]
    split
    · rename_i hj
      rw [hj]
    · rfl
  unfold Clusters.addInst
  dsimp only
  split <;> exact ⟨rfl, hat⟩

section Insert

variable {p' : GProcessor} {r' : Clusters} {f : Fetched}

/-- An instruction that is accepted leaves the ones that the tables name where they are. -/
theorem Tracks.pending_old {SSID : ℕ} (h : Tracks k m) (hf : Flight m.proc.core m.inFlight)
    (hp : Inserted m.proc.core p'.core f) (hl : p'.rROB ++ p'.ROB = m.inFlight ++ [m.proc.core.n])
    (hi : m.clusters.storeset.LFST SSID = some i) :
    (m.clusters.placed i).SSID = some SSID ∧ i ≠ m.proc.core.n ∧ i ∈ p'.rROB ++ p'.ROB ∧
      (p'.core.insts i).executed = false ∧ inserts k (p'.core.insts i).inst = true := by
  obtain ⟨hid, hmem, hex, hins⟩ := h.pending SSID i hi
  have hlt := hf.lt i hmem
  obtain ⟨hinst, hexec, -⟩ := hp.old i hlt
  rw [hl, hinst, hexec]
  exact ⟨hid, Nat.ne_of_lt hlt, List.mem_append_left _ hmem, hex, hins⟩

/-- One that is put into no set. -/
theorem Tracks.insert_none (h : Tracks k m) (hf : Flight m.proc.core m.inFlight)
    (hp : Inserted m.proc.core p'.core f) (hl : p'.rROB ++ p'.ROB = m.inFlight ++ [m.proc.core.n])
    (hset : r'.storeset = m.clusters.storeset)
    (hold : ∀ j, j ≠ m.proc.core.n → (r'.placed j).SSID = (m.clusters.placed j).SSID)
    (hnew : ∀ SSID, (r'.placed m.proc.core.n).SSID = some SSID → (m.clusters.placed m.proc.core.n).SSID = some SSID) :
    Tracks k ⟨p', r'⟩ := by
  refine ⟨?_, fun hsize i SSID hi => ?_, fun SSID i hi => ?_⟩
  · show InRange _ r'.storeset
    rw [hset]
    exact h.range
  · by_cases hin : i = m.proc.core.n
    · subst hin
      exact h.SSID hsize _ SSID (hnew SSID hi)
    · exact h.SSID hsize i SSID (hold i hin ▸ hi)
  · dsimp only at hi
    rw [hset] at hi
    obtain ⟨hid, hne, hrest⟩ := h.pending_old hf hp hl hi
    dsimp only
    rw [hold i hne]
    exact ⟨hid, hrest⟩

/-- One that is put into the set `id`, as its last instruction. -/
theorem Tracks.insert_last {id : ℕ} (h : Tracks k m) (hf : Flight m.proc.core m.inFlight)
    (hp : Inserted m.proc.core p'.core f) (hl : p'.rROB ++ p'.ROB = m.inFlight ++ [m.proc.core.n])
    (hins : inserts k f.inst = true) (hid : 0 < k.StoreSetSize → id < k.StoreSetSize)
    (hset : r'.storeset =
      { m.clusters.storeset with LFST := Function.update m.clusters.storeset.LFST id (some m.proc.core.n) })
    (hold : ∀ j, j ≠ m.proc.core.n → (r'.placed j).SSID = (m.clusters.placed j).SSID)
    (hnew : (r'.placed m.proc.core.n).SSID = some id) : Tracks k ⟨p', r'⟩ := by
  refine ⟨?_, fun hsize i SSID hi => ?_, fun SSID i hi => ?_⟩
  · show InRange _ r'.storeset
    rw [hset]
    exact h.range
  · by_cases hin : i = m.proc.core.n
    · dsimp only at hi
      rw [hin, hnew] at hi
      obtain rfl := Option.some.inj hi
      exact hid hsize
    · exact h.SSID hsize i SSID (hold i hin ▸ hi)
  · dsimp only at hi
    rw [hset] at hi
    dsimp only at hi
    rw [Function.update_apply] at hi
    split at hi
    · rename_i hSSID
      obtain rfl := Option.some.inj hi
      dsimp only
      rw [hnew, hSSID, hp.inst, hp.new.1]
      refine ⟨rfl, ?_, rfl, hins⟩
      show _ ∈ p'.rROB ++ p'.ROB
      rw [hl]
      exact List.mem_append_right _ (List.mem_singleton_self _)
    · obtain ⟨hid, hne, hrest⟩ := h.pending_old hf hp hl hi
      dsimp only
      rw [hold i hne]
      exact ⟨hid, hrest⟩

/-- **An instruction is accepted.** -/
theorem Tracks.insert {a : Arriving} {x : Ask} (h : Tracks k m)
    (hf : Flight m.proc.core m.inFlight) (hp : Inserted m.proc.core p'.core a.fetched)
    (hl : p'.rROB ++ p'.ROB = m.inFlight ++ [m.proc.core.n]) (hx : x.i = m.proc.core.n)
    (hr : (r'.storeset = m.clusters.storeset ∧ r'.placed = m.clusters.placed) ∨
      (inserts k a.fetched.inst = true ∧ r'.storeset = (speculate k x a m.clusters).2.storeset ∧
        r'.placed = (speculate k x a m.clusters).2.placed)) : Tracks k ⟨p', r'.addInst m.proc.core.n a⟩ := by
  obtain ⟨hset, hplaced⟩ := addInst_storeset r' m.proc.core.n a
  rcases hr with ⟨hset', hplaced'⟩ | ⟨hins, hset', hplaced'⟩
  · have hsame : ∀ j, ((r'.addInst m.proc.core.n a).placed j).SSID = (m.clusters.placed j).SSID := by
      intro j
      rw [hplaced, hplaced']
    exact h.insert_none hf hp hl (hset.trans hset') (fun j _ => hsame j) fun SSID hi => hsame _ ▸ hi
  · have hold : ∀ j, j ≠ m.proc.core.n → ((r'.addInst m.proc.core.n a).placed j).SSID = (m.clusters.placed j).SSID := by
      intro j hj
      rw [hplaced, hplaced', speculate_placed _ _ _ (hx ▸ hj)]
    have hnew : ((r'.addInst m.proc.core.n a).placed m.proc.core.n).SSID =
        ((speculate k x a m.clusters).2.placed x.i).SSID := by
      rw [hplaced, hplaced', hx]
    rcases speculate_cases (k := k) x a m.clusters with ⟨hsame, hnone⟩ | ⟨id, hid, hsame, hsome⟩
    · refine h.insert_none hf hp hl (hset.trans (hset'.trans hsame)) hold fun SSID hi => ?_
      rw [hnew, hnone] at hi
      cases hi
    · have hrange : 0 < k.StoreSetSize → id < k.StoreSetSize := fun hsize => h.range _ (hashPC_lt _ hsize) _ hid
      rw [hx] at hsame
      exact h.insert_last hf hp hl hins hrange (hset.trans (hset'.trans hsame)) hold (hnew.trans hsome)

end Insert

theorem Tracks.addInst (h : Tracks k m) (hc : Conserved k m) (t : ℕ) (a : Arriving) :
    Tracks k (m.addInst k t a).2 := by
  by_cases hs : (m.addInst k t a).1 = .NoStall
  · obtain ⟨-, hnext⟩ := addInst_noStall hs
    rw [hnext]
    obtain ⟨hins, hrROB, hROB⟩ := GProcessor.inserted (k := k) hc.flight.deps a.fetched
      (m.clusters.canIssue k (m.ask t) a).lfs
    refine h.insert (x := m.ask t) hc.flight hins ?_ rfl ?_
    · rw [hrROB, hROB, inFlight, List.append_assoc]
    · rcases canIssue_storeset (k := k) (m.ask t) a m.clusters with ⟨-, hset, hpl⟩ | ⟨-, hin, -, hset, hpl⟩
      · exact .inl ⟨hset, hpl⟩
      · exact .inr ⟨hin, hset, hpl⟩
  · obtain ⟨b, hb⟩ := hc.addInst_stall t a hs
    rw [hb]
    exact h.keep rfl (fun _ => rfl) rfl fun j hj _ => hj

/-- **A callback.** What executes takes itself out, if it is not one of the two or was replaced. -/
theorem Tracks.fire {p' : GProcessor} (h : Tracks k m) (hc : Conserved k m) (hf : m.proc.fire k i = some p')
    (hP : m.Replaced (.fire i)) : Tracks k ⟨p', m.called k i⟩ := by
  obtain ⟨hfire, hrROB, hROB⟩ := GProcessor.fire_eq hf
  obtain ⟨-, -, cb, hfired⟩ := hc.flight.fire hfire
  obtain ⟨hplaced, hset⟩ := called_storeset (k := k) m i
  have hl : inFlight ⟨p', m.called k i⟩ = m.inFlight := by
    show p'.rROB ++ p'.ROB = _
    rw [hrROB, hROB]
    rfl
  refine ⟨?_, fun hsize j SSID hj => ?_, fun SSID j hj => ?_⟩
  · have hrange := h.range
    show InRange _ (m.called k i).storeset
    rw [hset]
    split
    · intro x hx SSID hs
      rw [remove_SSIT] at hs
      exact hrange x hx SSID hs
    · exact hrange
  · dsimp only at hj
    rw [hplaced] at hj
    exact h.SSID hsize j SSID hj
  · -- what is left was there, and is not the instruction that has executed
    have hleft : m.clusters.storeset.LFST SSID = some j ∧ ¬(j = i ∧ cb = .executed) := by
      dsimp only at hj
      rw [hset] at hj
      split at hj
      · rename_i hrem
        obtain ⟨hwas, hne⟩ := remove_LFST hj
        refine ⟨hwas, fun ⟨hji, _⟩ => hne ⟨hji, ?_⟩⟩
        rw [← hji]
        exact (h.pending SSID j hwas).1
      · rename_i hrem
        refine ⟨hj, ?_⟩
        rintro ⟨rfl, rfl⟩
        obtain ⟨hid, -, -, hins⟩ := h.pending SSID j hj
        rw [not_and] at hrem
        refine hrem hfired.was (removes_of_inserts hins fun hop => ?_)
        exact hP hfired.was hop SSID hid hj
    obtain ⟨hwas, hne⟩ := hleft
    obtain ⟨hid, hmem, hex, hins⟩ := h.pending SSID j hwas
    rw [hl]
    dsimp only
    rw [hplaced, hfired.inst, hfired.executed, hex]
    refine ⟨hid, hmem, ?_, hins⟩
    by_cases hji : j = i
    · cases cb with
      | executed => exact absurd ⟨hji, rfl⟩ hne
      | select | executing => simp
    · simp [hji]

/-- The retirement of an instruction does not touch the tables. -/
theorem retire_storeset (r : Clusters) (full : Bool) (i : ℕ) (inst : Instruction) :
    (r.retire k full i inst).2.storeset = r.storeset ∧ (r.retire k full i inst).2.placed = r.placed := by
  have hunit : ∀ (fu : FU) u, (fu.retire full i inst u r).2.storeset = r.storeset ∧
      (fu.retire full i inst u r).2.placed = r.placed := by
    intro fu u
    cases fu
    case Store | Store_noMemSpec =>
      simp only [FU.retire]
      split_ifs <;> exact ⟨rfl, rfl⟩
    all_goals exact ⟨rfl, rfl⟩
  have hu := hunit (buildUnit k inst.opcode) ((r.placed i).cluster, inst.opcode)
  unfold Clusters.retire
  dsimp only
  generalize (buildUnit k inst.opcode).retire full i inst ((r.placed i).cluster, inst.opcode) r = u at hu
  split
  · exact hu
  · split <;> split <;> exact hu

/-- The buffers change and hold the same instructions. -/
theorem Tracks.same {p' : GProcessor} (h : Tracks k m) (hcore : p'.core = m.proc.core)
    (hl : p'.rROB ++ p'.ROB = m.inFlight) : Tracks k { m with proc := p' } := by
  refine h.keep rfl (fun _ => rfl) hcore fun j hj _ => ?_
  show j ∈ p'.rROB ++ p'.ROB
  rwa [hl]

/-- **A retirement.** What leaves has executed. -/
theorem Tracks.retire (h : Tracks k m) (hs : step k m .retire = some m') : Tracks k m' := by
  simp only [Machine.step] at hs
  split at hs
  · cases hs
  · rename_i i rest hr
    simp only [Option.ite_none_right_eq_some] at hs
    obtain ⟨hex, hs⟩ := hs
    obtain ⟨hset, hplaced⟩ := retire_storeset (k := k) m.clusters m.proc.fullLSQ i (m.proc.core.insts i).inst
    split at hs
    · obtain ⟨p', hp, rfl⟩ := Option.map_eq_some_iff.1 hs
      obtain ⟨-, hcore, hrROB, hROB⟩ := GProcessor.retire_eq hr hp
      refine h.keep hset (fun j => by dsimp only; rw [hplaced]) hcore fun j hj hjex => ?_
      show j ∈ p'.rROB ++ p'.ROB
      rw [hrROB, hROB]
      rw [inFlight, hr] at hj
      rcases List.mem_cons.1 hj with rfl | hj
      · rw [hex] at hjex
        cases hjex
      · exact hj
    · -- the cluster has not let it go
      obtain rfl := Option.some.inj hs
      exact h.keep hset (fun j => by dsimp only; rw [hplaced]) rfl fun j hj _ => hj

/-- **A step.** -/
theorem Tracks.step (hs : step k m e = some m') (hD : Rewritten k m e) (hP : m.Replaced e) (hc : Conserved k m)
    (h : Tracks k m) : Tracks k m' := by
  cases e with
  | addInst t a =>
    obtain rfl := Option.some.inj hs
    exact h.addInst hc t a
  | fire i =>
    simp only [Machine.step, Option.map_eq_some_iff] at hs
    obtain ⟨p', hp, rfl⟩ := hs
    exact h.fire hc hp hP
  | performed i =>
    obtain rfl := Option.some.inj hs
    refine h.keep rfl (fun j => ?_) rfl fun j hj _ => hj
    dsimp only
    rw [Function.update_apply]
    split
    · rename_i hj
      rw [hj]
    · rfl
  | preretire =>
    simp only [Machine.step, Option.map_eq_some_iff] at hs
    obtain ⟨p', hp, rfl⟩ := hs
    obtain ⟨hcore, hl⟩ := GProcessor.preretire_eq hp
    exact h.same hcore hl
  | retire => exact h.retire hs
  | replay target =>
    obtain rfl := Option.some.inj hs
    obtain ⟨hcore, hrROB, hROB⟩ := GProcessor.replay_eq (k := k) m.proc target
    refine h.same hcore ?_
    rw [hrROB, hROB]
    rfl
  | recover =>
    simp only [Machine.step, Option.map_eq_some_iff] at hs
    obtain ⟨p', hp, rfl⟩ := hs
    obtain ⟨hcore, hrROB, hROB⟩ := GProcessor.recover_eq hp
    refine h.same hcore ?_
    rw [hrROB, hROB]
    rfl
  | storeset ss =>
    obtain rfl := Option.some.inj hs
    obtain ⟨w, hw, rfl⟩ := hD
    refine ⟨?_, h.SSID, fun SSID i hi => h.pending SSID i (apply_LFST w hi)⟩
    refine h.range.apply w ?_ ?_
    · rintro rnd SSID ld_pc st_pc rfl hsize
      obtain ⟨i, hi⟩ := hw
      exact h.SSID hsize i SSID hi.symm
    · rintro id1 id2 rfl
      exact hw

/-- One of the two that was not replaced stays in the table when it has executed. -/
theorem not_consistent_of_fire (hs : step k m e = some m') (hc : Conserved k m) (hP : ¬m.Replaced e) :
    ¬Consistent k m' := by
  cases e with
  | fire i =>
    simp only [Replaced, not_forall, not_not] at hP
    obtain ⟨hcb, hop, SSID, hid, hlast⟩ := hP
    simp only [Machine.step, Option.map_eq_some_iff] at hs
    obtain ⟨p', hp, rfl⟩ := hs
    obtain ⟨hfire, -, -⟩ := GProcessor.fire_eq hp
    obtain ⟨-, -, cb, hfired⟩ := hc.flight.fire hfire
    obtain rfl : cb = .executed := Option.some.inj (hfired.was.symm.trans hcb)
    obtain ⟨-, hset⟩ := called_storeset (k := k) m i
    have hnot : removes k (m.proc.core.insts i).inst = false := by
      unfold removes buildUnit
      rcases hop with hop | hop <;> rw [hop] <;> dsimp only <;> split_ifs <;>
        simp [Instruction.isStore, hop]
    rw [hnot, if_neg (by simp)] at hset
    intro h
    obtain ⟨-, -, hex⟩ := h.pending SSID i (by dsimp only; rw [hset]; exact hlast)
    dsimp only at hex
    rw [hfired.executed] at hex
    simp at hex
  | _ => exact absurd trivial hP

/-- **Store sets.** In every run whose rewrites of the tables are those of `StoreSet`, the tables are
consistent in every state exactly when every load-linked and every store-conditional that executes has been
replaced in its set, or is in none. -/
theorem storeSets_consistent_iff (k : CpuConfig) (kind : GProcessor.Kind) (es : List Event) {m : Machine}
    (h : run (step k) (init k kind) es = some m) (hD : Along (step k) (Rewritten k) (init k kind) es) :
    (∀ es' t, es' <+: es → run (step k) (init k kind) es' = some t → Consistent k t) ↔
      Along (step k) Replaced (init k kind) es :=
  forall_prefix_iff_along (I := fun m => Conserved k m ∧ Tracks k m) (fun _ hI => hI.2.consistent)
    (fun _ _ _ hs hD hP hI => ⟨hI.1.step hs, hI.2.step hs hD hP hI.1⟩)
    (fun _ _ _ hs _ hP hI => not_consistent_of_fire hs hI.1 hP) h hD ⟨conserved_init kind, tracks_init kind⟩

/-- A core with room for a few loads and stores, and sixteen sets. -/
def sixteenSets : CpuConfig := { oneLoad with maxLoads := 4, maxStores := 4 }

def memOp (op : InstOpcode) (pc : ℕ) : Arriving := ⟨⟨⟨op, 1, 0, LREG_InvalidOutput, LREG_InvalidOutput⟩, pc, pc⟩, 0x100, 0, 0⟩

/-- The tables after the violation of the load at 4 and the store at 8. -/
def violation : StoreSet := (Rewrite.stldViolation 0 none 4 8).apply 16 .init

/-- After a violation both PCs are of one set, and a load and a store are in it, linked and not executed. -/
theorem storeSets_consistent_violation :
    ∃ m, run (step sixteenSets) (init sixteenSets (.OoO 0 0))
        [.storeset violation, .addInst 0 (memOp .iLALU_LD 4), .addInst 0 (memOp .iSALU_ST 8)] = some m ∧
      m.clusters.storeset.LFST 0 = some 1 ∧ Consistent sixteenSets m := by
  have hend : (run (step sixteenSets) (init sixteenSets (.OoO 0 0))
      [.storeset violation, .addInst 0 (memOp .iLALU_LD 4), .addInst 0 (memOp .iSALU_ST 8)]).any
      (fun m => m.clusters.storeset.LFST 0 == some 1) = true := by
    decide +kernel
  obtain ⟨m, hrun, hm⟩ := (Option.any_eq_true _ _).1 hend
  rw [beq_iff_eq] at hm
  have hD : Along (step sixteenSets) (Rewritten sixteenSets) (init sixteenSets (.OoO 0 0))
      [.storeset violation, .addInst 0 (memOp .iLALU_LD 4), .addInst 0 (memOp .iSALU_ST 8)] := by
    refine ⟨⟨.stldViolation 0 none 4 8, ⟨0, rfl⟩, rfl⟩, fun s _ => Along.of_forall_mem ?_ s⟩
    simp [Rewritten]
  have hP : Along (step sixteenSets) Replaced (init sixteenSets (.OoO 0 0))
      [.storeset violation, .addInst 0 (memOp .iLALU_LD 4), .addInst 0 (memOp .iSALU_ST 8)] := by
    refine Along.of_forall_mem ?_ _
    simp [Replaced]
  exact ⟨m, hrun, hm, (storeSets_consistent_iff sixteenSets (.OoO 0 0) _ hrun hD).2 hP _ m List.prefix_rfl hrun⟩

/-- A store, and a younger load that executes first; and then a load-linked at the PC of the store. -/
def beforeViolation : List Event :=
  [.addInst 0 (memOp .iSALU_ST 8), .addInst 0 (memOp .iLALU_LD 4), .fire 1, .fire 1, .fire 1, .fire 0, .fire 0]

def afterViolation : List Event := [.fire 0, .addInst 9 (memOp .iSALU_LL 8), .fire 2, .fire 2, .fire 2]

/-- **A dangling pointer.** The load-linked has executed and is still the last instruction of its set, so that
the load that comes next is linked behind it. -/
theorem storeSet_keeps_executed :
    Along (step sixteenSets) (Rewritten sixteenSets) (init sixteenSets (.OoO 0 0))
        (beforeViolation ++ .storeset violation :: afterViolation) ∧
      ∃ m, run (step sixteenSets) (init sixteenSets (.OoO 0 0))
          (beforeViolation ++ .storeset violation :: afterViolation) = some m ∧
        m.clusters.storeset.LFST 0 = some 2 ∧ (m.proc.core.insts 2).executed = true ∧
        (m.clusters.canIssue sixteenSets (m.ask 12) (memOp .iLALU_LD 4)).lfs = some 2 ∧ ¬Consistent sixteenSets m := by
  constructor
  · refine Along.append (Along.of_forall_mem (by simp [beforeViolation, Rewritten]) _) fun t ht => ?_
    refine ⟨⟨.stldViolation 0 none 4 8, ⟨9, ?_⟩, ?_⟩, fun s _ => Along.of_forall_mem (by simp [afterViolation, Rewritten]) s⟩
    · have hnone : (run (step sixteenSets) (init sixteenSets (.OoO 0 0)) beforeViolation).map
          (fun m => (m.clusters.placed 9).SSID) = some none := by decide +kernel
      rw [ht] at hnone
      exact (Option.some.inj hnone).symm
    · have hinit : (run (step sixteenSets) (init sixteenSets (.OoO 0 0)) beforeViolation).map
          (fun m => m.clusters.storeset) = some .init := rfl
      rw [ht] at hinit
      rw [show t.clusters.storeset = .init from Option.some.inj hinit]
      rfl
  · have hend : (run (step sixteenSets) (init sixteenSets (.OoO 0 0))
        (beforeViolation ++ .storeset violation :: afterViolation)).any
        (fun m => m.clusters.storeset.LFST 0 == some 2 && (m.proc.core.insts 2).executed &&
          (m.clusters.canIssue sixteenSets (m.ask 12) (memOp .iLALU_LD 4)).lfs == some 2) = true := by
      decide +kernel
    obtain ⟨m, hrun, hm⟩ := (Option.any_eq_true _ _).1 hend
    simp only [Bool.and_eq_true, beq_iff_eq] at hm
    obtain ⟨⟨hlast, hex⟩, hlfs⟩ := hm
    refine ⟨m, hrun, hlast, hex, hlfs, fun h => ?_⟩
    rw [(h.pending 0 2 hlast).2.2] at hex
    cases hex

end Machine

end Esesc.Core
