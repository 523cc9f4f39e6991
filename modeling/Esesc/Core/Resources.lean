import Esesc.Core.GProcessor
import Esesc.Lib.Credit

/-!
# Resources of a core are conserved

The users of the registers, of the window entries and of the entries of the units are the instructions in the
rROB and the ROB. Where an instruction is on its way decides which credits it still holds.

* `answers_cluster`: what `canIssue` takes, and that a stall takes nothing.
* `GivesBack`: what a callback or a retirement gives back.
* `Conserved.addInst`, `Conserved.fire`, `Conserved.retire`: one step.
* `resources_conserved`: every run.
-/

namespace Esesc.Core

open Esesc.Lib InFlight

namespace Machine

variable (k : CpuConfig)

/-! ## Who holds what -/

/-- The entry of the window was given back, by the kind of the cluster. -/
def recycled (x : DInst) : ClusterKind → Bool
  | .ExecutingCluster => begun x
  | .ExecutedCluster => x.executed
  | .RetiredCluster => false

/-- The instruction has an entry of the window of cluster `c`. -/
def inWindow (m : Machine) (c i : ℕ) : Bool :=
  (m.clusters.placed i).cluster == c && !recycled (m.proc.core.insts i) (k.cluster c).kind

/-- The instruction has a register of cluster `c`. -/
def hasReg (m : Machine) (c i : ℕ) : Bool :=
  (m.clusters.placed i).cluster == c && (m.proc.core.insts i).inst.hasDstRegister

/-- A unit for branches has those that are not resolved, one for loads has all of its instructions, one for stores
those with data. -/
def holds (x : DInst) : FU → Bool
  | .Branch => !x.executed
  | .Load | .Load_noMemSpec => true
  | .Store | .Store_noMemSpec => !x.inst.isStoreAddress
  | .RALU | .Generic | .Fuze | .SCOORELoad | .SCOOREStore => false

/-- The instruction has an entry of the unit `u`. -/
def hasEntry (m : Machine) (u : UnitId) (i : ℕ) : Bool :=
  (m.clusters.placed i).cluster == u.1 && (m.proc.core.insts i).inst.opcode == u.2 &&
    holds (m.proc.core.insts i) (buildUnit k u.2)

end Machine

/-! ## What `canIssue` takes -/

namespace Machine

open FU

variable {k : CpuConfig} {m m' : Machine} {a : Arriving} {x : DInst} {u : UnitId} {q : Ask} {r r' : Clusters}
  {s s' : InFlight} {i : ℕ}

/-- Nothing that is counted, and no cluster of an instruction, has changed. -/
structure Keeps (r r' : Clusters) : Prop where
  windowSize : r'.windowSize = r.windowSize
  regPool : r'.regPool = r.regPool
  free : r'.free = r.free
  cluster : ∀ j, (r'.placed j).cluster = (r.placed j).cluster

theorem Keeps.refl (r : Clusters) : Keeps r r := ⟨rfl, rfl, rfl, fun _ => rfl⟩

/-- A unit has accepted the instruction `x`, and has given it an entry if it takes one. -/
structure Takes (x : DInst) (fu : FU) (u : UnitId) (r r' : Clusters) : Prop where
  windowSize : r'.windowSize = r.windowSize
  regPool : r'.regPool = r.regPool
  free : r'.free = Function.update r.free u (r.free u - if holds x fu then 1 else 0)
  room : holds x fu = true → 0 < r.free u
  cluster : ∀ j, (r'.placed j).cluster = (r.placed j).cluster

theorem Keeps.takes {fu : FU} (h : Keeps r r') (hx : holds x fu = false) : Takes x fu u r r' := by
  refine ⟨h.windowSize, h.regPool, ?_, fun hc => ?_, h.cluster⟩
  · rw [h.free, hx]
    simp
  · rw [hx] at hc
    cases hc

theorem Keeps.takes_one {fu : FU} (h : Keeps r r') (hx : holds x fu = true) (hpos : 0 < r.free u) :
    Takes x fu u r (r'.addFree u (-1)) := by
  refine ⟨h.windowSize, h.regPool, ?_, fun _ => hpos, h.cluster⟩
  show Function.update r'.free u (r'.free u + -1) = _
  rw [h.free, hx, if_pos rfl]
  rfl

theorem cluster_update (f : ℕ → Placed) {p : Placed} (hp : p.cluster = (f i).cluster) (j : ℕ) :
    (Function.update f i p j).cluster = (f j).cluster := by
  rw [Function.update_apply]
  split
  · rename_i hj
    rw [hp, hj]
  · rfl

theorem keeps_speculate (q : Ask) (a : Arriving) (r : Clusters) : Keeps r (speculate k q a r).2 :=
  ⟨rfl, rfl, rfl, cluster_update r.placed rfl⟩

/-- What an answer of `canIssue` means: a stall has changed no more than `blockUntil`. -/
structure Answers (x : DInst) (fu : FU) (u : UnitId) (r : Clusters) (ans : Answer) : Prop where
  stall : ans.sc ≠ .NoStall → ∃ b, ans.clusters = { r with blockUntil := b }
  noStall : ans.sc = .NoStall → Takes x fu u r ans.clusters

theorem answers_takeEntry {fu : FU} {stall : StallCause} {insert : Clusters → Option ℕ × Clusters}
    (hx : holds x fu = true) (hstall : stall ≠ .NoStall) (hins : Keeps r (insert r).2) :
    Answers x fu u r (takeEntry stall insert u r) := by
  unfold takeEntry
  split
  · exact ⟨fun _ => ⟨r.blockUntil, rfl⟩, fun hc => absurd hc hstall⟩
  · rename_i hfree
    exact ⟨fun hc => absurd rfl hc, fun _ => hins.takes_one hx (Int.not_le.1 hfree)⟩

theorem answers_keeps {fu : FU} {sc : StallCause} {lfs : Option ℕ} (hx : holds x fu = false) (b : UnitId → ℕ) :
    Answers x fu u r ⟨sc, lfs, { r with blockUntil := b }⟩ :=
  ⟨fun _ => ⟨b, rfl⟩, fun _ => Keeps.takes ⟨rfl, rfl, rfl, fun _ => rfl⟩ hx⟩

/-- **The units**: a new instruction that is accepted has what it will give back. -/
theorem answers_unit (fu : FU) (hx : x.inst = a.fetched.inst) (hnew : x.executed = false) (hnn : 0 ≤ r.free u) :
    Answers x fu u r (fu.canIssue k q a u r) := by
  cases fu with
  | RALU =>
    show Answers _ _ _ _ (issueRALU k q a u r)
    unfold issueRALU
    split_ifs <;> exact answers_keeps rfl _
  | Branch =>
    have hold : holds x .Branch = true := by simp [holds, hnew]
    show Answers _ _ _ _ (issueBranch u r)
    unfold issueBranch
    split
    · exact ⟨fun _ => ⟨r.blockUntil, rfl⟩, nofun⟩
    · rename_i hfree
      exact ⟨fun hc => absurd rfl hc, fun _ => (Keeps.refl r).takes_one hold (by omega)⟩
  | Load => exact answers_takeEntry rfl (by decide) (keeps_speculate q a r)
  | Load_noMemSpec => exact answers_takeEntry rfl (by decide) (.refl r)
  | Store =>
    simp only [FU.canIssue]
    split
    · rename_i haddr
      exact answers_keeps (by simp [holds, hx, haddr]) r.blockUntil
    · rename_i haddr
      exact answers_takeEntry (by simp [holds, hx, haddr]) (by decide) (keeps_speculate q a r)
  | Store_noMemSpec =>
    simp only [FU.canIssue]
    split
    · rename_i haddr
      exact answers_keeps (by simp [holds, hx, haddr]) r.blockUntil
    · rename_i haddr
      exact answers_takeEntry (by simp [holds, hx, haddr]) (by decide) (.refl r)
  | Generic | Fuze | SCOORELoad | SCOOREStore => exact answers_keeps rfl r.blockUntil

/-- **The cluster**: on success there was a register and an entry of the window left. -/
theorem answers_cluster (hx : x.inst = a.fetched.inst) (hnew : x.executed = false)
    (hnn : 0 ≤ r.free (a.cluster, a.fetched.inst.opcode)) :
    Answers x (buildUnit k a.fetched.inst.opcode) (a.cluster, a.fetched.inst.opcode) r (r.canIssue k q a) ∧
      ((r.canIssue k q a).sc = .NoStall → 0 < r.regPool a.cluster ∧ 0 < r.windowSize a.cluster) := by
  unfold Clusters.canIssue
  split
  · exact ⟨⟨fun _ => ⟨r.blockUntil, rfl⟩, nofun⟩, nofun⟩
  · rename_i hreg
    split
    · exact ⟨⟨fun _ => ⟨r.blockUntil, rfl⟩, nofun⟩, nofun⟩
    · rename_i hwin
      exact ⟨answers_unit _ hx hnew hnn, fun _ => ⟨Int.not_le.1 hreg, Int.not_le.1 hwin⟩⟩

/-! ## Conservation -/

/-- A counter of one cluster is decremented. -/
theorem update_sub (f : ℕ → ℤ) (c d : ℕ) : Function.update f c (f c + -1) d = f d - if c == d then 1 else 0 := by
  by_cases hd : d = c
  · subst hd
    simp [Int.sub_eq_add_neg]
  · simp [hd, Ne.symm hd]

/-- Another unit is one of another cluster or for another opcode. -/
theorem other_unit {c : ℕ} {op : InstOpcode} (hu : u ≠ (c, op)) : (c == u.1 && op == u.2) = false := by
  rw [Bool.and_eq_false_iff, beq_eq_false_iff_ne, beq_eq_false_iff_ne]
  by_contra hc
  push Not at hc
  exact hu (Prod.ext hc.1.symm hc.2.symm)

/-- Free and in use make what was configured: window entries and registers of every cluster, entries of every unit. -/
structure Conserved (k : CpuConfig) (m : Machine) : Prop where
  flight : Flight m.proc.core m.inFlight
  window : ∀ c, Credits (m.clusters.windowSize c) (k.cluster c).winSize m.inFlight (m.inWindow k c)
  regs : ∀ c, Credits (m.clusters.regPool c) (k.cluster c).nRegs m.inFlight (m.hasReg c)
  entries : ∀ u, Credits (m.clusters.free u) ((buildUnit k u.2).size k) m.inFlight (m.hasEntry k u)

theorem conserved_init (kind : GProcessor.Kind) : Conserved k (init k kind) := by
  have hdeps : Deps InFlight.empty none := by
    refine ⟨?_, ?_, ?_, ?_, ?_, ?_, ?_, ?_, ?_⟩
    all_goals simp [InFlight.empty, DInst.setup, DInst.used]
  have hflight : Flight InFlight.empty [] := by
    refine ⟨hdeps, List.nodup_nil, List.forall_mem_nil _, fun i hi => absurd hi i.not_lt_zero, fun i _ => rfl⟩
  cases kind with
  | OoO logical pc =>
    exact ⟨hflight, fun c => credits_nil _ _, fun c => credits_nil _ _, fun u => credits_nil _ _⟩
  | InOrder => exact ⟨hflight, fun c => credits_nil _ _, fun c => credits_nil _ _, fun u => credits_nil _ _⟩

/-- An instruction that is where it was holds what it held. -/
theorem holds_congr {y : DInst} (hinst : y.inst = x.inst) (hex : y.executed = x.executed) (fu : FU) :
    holds y fu = holds x fu := by
  unfold holds
  rw [hinst, hex]

theorem recycled_congr {y : DInst} (hex : y.executed = x.executed) (hbegun : begun y = begun x)
    (kind : ClusterKind) : recycled y kind = recycled x kind := by
  unfold recycled
  rw [hex, hbegun]

/-- A step that moves no instruction on and takes nothing. -/
theorem Conserved.keep (h : Conserved k m) (hc : m'.proc.core = m.proc.core) (hl : m'.inFlight = m.inFlight)
    (hr : Keeps m.clusters m'.clusters) : Conserved k m' := by
  refine ⟨by rw [hc, hl]; exact h.flight, fun c => ?_, fun c => ?_, fun u => ?_⟩
  · rw [hr.windowSize, hl]
    refine (h.window c).congr fun j _ => ?_
    unfold inWindow
    rw [hr.cluster, hc]
  · rw [hr.regPool, hl]
    refine (h.regs c).congr fun j _ => ?_
    unfold hasReg
    rw [hr.cluster, hc]
  · rw [hr.free, hl]
    refine (h.entries u).congr fun j _ => ?_
    unfold hasEntry
    rw [hr.cluster, hc]

/-- **An instruction is accepted**: the last in flight is new, and holds what was taken. -/
theorem Conserved.insert {p' : GProcessor} {f : Fetched} (h : Conserved k m) (hp : Inserted m.proc.core p'.core f)
    (hl : p'.rROB ++ p'.ROB = m.inFlight ++ [m.proc.core.n]) {c : ℕ}
    (hcl : ∀ j, (r'.placed j).cluster = if j = m.proc.core.n then c else (m.clusters.placed j).cluster)
    (hwin : ∀ d, r'.windowSize d = m.clusters.windowSize d - if c == d then 1 else 0)
    (hreg : ∀ d, r'.regPool d = m.clusters.regPool d - if c == d && f.inst.hasDstRegister then 1 else 0)
    (hfree : ∀ u, r'.free u = m.clusters.free u - if c == u.1 && f.inst.opcode == u.2 &&
      holds (p'.core.insts m.proc.core.n) (buildUnit k u.2) then 1 else 0)
    (hroom : 0 < m.clusters.regPool c ∧ 0 < m.clusters.windowSize c)
    (hentry : holds (p'.core.insts m.proc.core.n) (buildUnit k f.inst.opcode) = true →
      0 < m.clusters.free (c, f.inst.opcode)) : Conserved k ⟨p', r'⟩ := by
  have hnew : begun (p'.core.insts m.proc.core.n) = false := by
    unfold begun
    rw [hp.new.1, Bool.false_or]
    exact beq_false_of_ne hp.new.2
  -- the others are where they were
  have hne : ∀ j ∈ m.inFlight, j ≠ m.proc.core.n := fun j hj => Nat.ne_of_lt (h.flight.lt j hj)
  have hold : ∀ j ∈ m.inFlight, (p'.core.insts j).inst = (m.proc.core.insts j).inst ∧
      (p'.core.insts j).executed = (m.proc.core.insts j).executed ∧
      begun (p'.core.insts j) = begun (m.proc.core.insts j) := by
    intro j hj
    obtain ⟨hi, hex, hcb⟩ := hp.old j (h.flight.lt j hj)
    refine ⟨hi, hex, ?_⟩
    unfold begun
    rw [hex, hcb]
  have hflight : Flight p'.core (p'.rROB ++ p'.ROB) := by
    rw [hl]
    exact h.flight.insert hp
  refine ⟨hflight, fun d => ?_, fun d => ?_, fun u => ?_⟩
  · show Credits (r'.windowSize d) _ (p'.rROB ++ p'.ROB) _
    rw [hwin, hl]
    refine (h.window d).enter (fun j hj => ?_) ?_ fun hx => ?_
    · obtain ⟨-, hex, hbegun⟩ := hold j hj
      unfold inWindow
      rw [hcl, if_neg (hne j hj), recycled_congr hex hbegun]
    · have hrec : recycled (p'.core.insts m.proc.core.n) (k.cluster d).kind = false := by
        unfold recycled
        rw [hnew, hp.new.1]
        split <;> rfl
      unfold inWindow
      rw [hcl, if_pos rfl, hrec, Bool.not_false, Bool.and_true]
    · rw [beq_iff_eq] at hx
      exact hx ▸ hroom.2
  · show Credits (r'.regPool d) _ (p'.rROB ++ p'.ROB) _
    rw [hreg, hl]
    refine (h.regs d).enter (fun j hj => ?_) ?_ fun hx => ?_
    · unfold hasReg
      rw [hcl, if_neg (hne j hj), (hold j hj).1]
    · unfold hasReg
      rw [hcl, if_pos rfl, hp.inst]
    · rw [Bool.and_eq_true, beq_iff_eq] at hx
      exact hx.1 ▸ hroom.1
  · show Credits (r'.free u) _ (p'.rROB ++ p'.ROB) _
    rw [hfree, hl]
    refine (h.entries u).enter (fun j hj => ?_) ?_ fun hx => ?_
    · obtain ⟨hi, hex, -⟩ := hold j hj
      unfold hasEntry
      rw [hcl, if_neg (hne j hj), hi, holds_congr hi hex]
    · unfold hasEntry
      rw [hcl, if_pos rfl, hp.inst]
    · simp only [Bool.and_eq_true, beq_iff_eq] at hx
      obtain ⟨⟨h1, h2⟩, hh⟩ := hx
      obtain rfl : (c, f.inst.opcode) = u := Prod.ext h1 h2
      exact hentry hh

/-- What `Cluster::addInst` changes. -/
theorem addInst_clusters (r : Clusters) (i : ℕ) (a : Arriving) :
    (∀ j, ((r.addInst i a).placed j).cluster = if j = i then a.cluster else (r.placed j).cluster) ∧
      (∀ d, (r.addInst i a).windowSize d = r.windowSize d - if a.cluster == d then 1 else 0) ∧
      (∀ d, (r.addInst i a).regPool d =
        r.regPool d - if a.cluster == d && a.fetched.inst.hasDstRegister then 1 else 0) ∧
      (r.addInst i a).free = r.free := by
  unfold Clusters.addInst
  dsimp only
  refine ⟨?_, ?_, ?_, ?_⟩
  · intro j
    have hat : ((Function.update r.placed i { r.placed i with cluster := a.cluster, performed := false }) j).cluster =
        if j = i then a.cluster else (r.placed j).cluster := by
      rw [Function.update_apply]
      split <;> rfl
    split <;> exact hat
  · intro d
    split <;> exact update_sub r.windowSize a.cluster d
  · intro d
    split
    · rename_i hdst
      rw [hdst, Bool.and_true]
      exact update_sub r.regPool a.cluster d
    · rename_i hdst
      rw [Bool.eq_false_iff.2 hdst, Bool.and_false]
      simp [Clusters.newEntry]
  · split <;> rfl

/-- An `addInst` that does not stall: the cluster answers, and the instruction goes into the processor and the
cluster. -/
theorem addInst_noStall {t : ℕ} (hs : (m.addInst k t a).1 = .NoStall) :
    (m.clusters.canIssue k (m.ask t) a).sc = .NoStall ∧
      (m.addInst k t a).2 = ⟨m.proc.insert k a.fetched (m.clusters.canIssue k (m.ask t) a).lfs,
        (m.clusters.canIssue k (m.ask t) a).clusters.addInst m.proc.core.n a⟩ := by
  have htest : ¬m.proc.test k a.fetched ≠ .NoStall := by
    intro htest
    unfold Machine.addInst at hs
    rw [if_pos htest] at hs
    exact htest hs
  unfold Machine.addInst at hs ⊢
  rw [if_neg htest] at hs ⊢
  dsimp only at hs ⊢
  split at hs
  · rename_i hsc
    exact absurd hs hsc
  · rename_i hsc
    rw [if_neg hsc]
    exact ⟨not_not.1 hsc, rfl⟩

/-- **A stall takes nothing.** -/
theorem Conserved.addInst_stall (h : Conserved k m) (t : ℕ) (a : Arriving)
    (hs : (m.addInst k t a).1 ≠ .NoStall) :
    ∃ b, (m.addInst k t a).2 = { m with clusters := { m.clusters with blockUntil := b } } := by
  unfold addInst at hs ⊢
  split at hs
  · rename_i htest
    rw [if_pos htest]
    exact ⟨m.clusters.blockUntil, rfl⟩
  · rename_i htest
    rw [if_neg htest]
    dsimp only at hs ⊢
    split at hs
    · rename_i hsc
      rw [if_pos hsc]
      have hans := (answers_cluster (k := k) (q := m.ask t) (r := m.clusters) (x := DInst.setup a.fetched []) rfl rfl
        (h.entries _).nonneg).1
      obtain ⟨b, hb⟩ := hans.stall hsc
      exact ⟨b, by rw [hb]⟩
    · exact absurd rfl hs

theorem Conserved.addInst (h : Conserved k m) (t : ℕ) (a : Arriving) : Conserved k (m.addInst k t a).2 := by
  by_cases hs : (m.addInst k t a).1 = .NoStall
  · obtain ⟨hsc, hnext⟩ := addInst_noStall hs
    rw [hnext]
    obtain ⟨hins, hrROB, hROB⟩ := GProcessor.inserted (k := k) h.flight.deps a.fetched
      (m.clusters.canIssue k (m.ask t) a).lfs
    obtain ⟨hans, hroom⟩ := answers_cluster (k := k) (q := m.ask t) (r := m.clusters) hins.inst hins.new.1
      (h.entries _).nonneg
    have htakes := hans.noStall hsc
    generalize m.clusters.canIssue k (m.ask t) a = ans at hsc hins hrROB hROB hans hroom htakes
    obtain ⟨hcl, hwin, hreg, hfree⟩ := addInst_clusters ans.clusters m.proc.core.n a
    refine h.insert (c := a.cluster) hins ?_ ?_ ?_ ?_ ?_ (hroom hsc) htakes.room
    · rw [hrROB, hROB, inFlight, List.append_assoc]
    · intro j
      rw [hcl, htakes.cluster]
    · intro d
      rw [hwin, htakes.windowSize]
    · intro d
      rw [hreg, htakes.regPool]
    · intro u
      rw [hfree, htakes.free, Function.update_apply]
      by_cases hu : u = (a.cluster, a.fetched.inst.opcode)
      · subst hu
        simp
      · rw [if_neg hu, other_unit hu]
        simp
  · obtain ⟨b, hb⟩ := h.addInst_stall t a hs
    rw [hb]
    exact h.keep rfl rfl ⟨rfl, rfl, rfl, fun _ => rfl⟩

/-- The callback at which a cluster gives the entry of the window back. -/
def recycles : ClusterKind → Callback → Bool
  | .ExecutingCluster, .executing | .ExecutedCluster, .executed => true
  | _, _ => false

/-- What an instruction of cluster `c` and opcode `op` gives back: an entry of the window if the cluster is of
a kind in `win`, a register if `reg`, and an entry of its unit if the unit is in `ent`. -/
structure GivesBack (k : CpuConfig) (c : ℕ) (op : InstOpcode) (r r' : Clusters) (win : ClusterKind → Bool)
    (reg : Bool) (ent : FU → Bool) : Prop where
  cluster : ∀ j, (r'.placed j).cluster = (r.placed j).cluster
  windowSize : ∀ d, r'.windowSize d = r.windowSize d + if c == d && win (k.cluster d).kind then 1 else 0
  regPool : ∀ d, r'.regPool d = r.regPool d + if c == d && reg then 1 else 0
  free : ∀ u : UnitId, r'.free u = r.free u + if c == u.1 && op == u.2 && ent (buildUnit k u.2) then 1 else 0

namespace GivesBack

variable {c : ℕ} {op : InstOpcode} {win : ClusterKind → Bool} {reg : Bool} {ent : FU → Bool}

theorem of_keeps (c : ℕ) (op : InstOpcode) (h : Keeps r r') :
    GivesBack k c op r r' (fun _ => false) false fun _ => false := by
  refine ⟨h.cluster, ?_, ?_, ?_⟩
  · intro d
    simp [h.windowSize]
  · intro d
    simp [h.regPool]
  · intro u
    simp [h.free]

theorem window (h : GivesBack k c op r r' (fun _ => false) reg ent) (win : ClusterKind → Bool) :
    GivesBack k c op r (if win (k.cluster c).kind then r'.delEntry c else r') win reg ent := by
  have hwin : ∀ d, r'.windowSize d = r.windowSize d := fun d => by simpa using h.windowSize d
  split
  · rename_i hw
    refine ⟨h.cluster, ?_, h.regPool, h.free⟩
    intro d
    show Function.update r'.windowSize c (r'.windowSize c + 1) d = _
    by_cases hd : d = c
    · subst hd
      simp [hwin, hw]
    · simp [hwin, hd, Ne.symm hd]
  · rename_i hw
    refine ⟨h.cluster, ?_, h.regPool, h.free⟩
    intro d
    by_cases hd : d = c
    · subst hd
      simp [hwin, hw]
    · simp [hwin, Ne.symm hd]

theorem register (h : GivesBack k c op r r' win false ent) (reg : Bool) :
    GivesBack k c op r (if reg then r'.addRegs c 1 else r') win reg ent := by
  have hreg : ∀ d, r'.regPool d = r.regPool d := fun d => by simpa using h.regPool d
  cases reg with
  | false => exact h
  | true =>
    refine ⟨h.cluster, h.windowSize, ?_, h.free⟩
    intro d
    show Function.update r'.regPool c (r'.regPool c + 1) d = _
    by_cases hd : d = c
    · subst hd
      simp [hreg]
    · simp [hreg, hd, Ne.symm hd]

theorem entry (h : GivesBack k c op r r' win reg fun _ => false) (ent : FU → Bool) :
    GivesBack k c op r (if ent (buildUnit k op) then r'.addFree (c, op) 1 else r') win reg ent := by
  have hfree : ∀ u, r'.free u = r.free u := fun u => by simpa using h.free u
  split
  · rename_i he
    refine ⟨h.cluster, h.windowSize, h.regPool, ?_⟩
    intro u
    show Function.update r'.free (c, op) (r'.free (c, op) + 1) u = _
    by_cases hu : u = (c, op)
    · subst hu
      simp [hfree, he]
    · simp [hfree, hu, other_unit hu]
  · rename_i he
    refine ⟨h.cluster, h.windowSize, h.regPool, ?_⟩
    intro u
    by_cases hu : u = (c, op)
    · subst hu
      simp [hfree, he]
    · simp [hfree, other_unit hu]

end GivesBack

/-- A unit that has executed an instruction gives the entry of a branch back, and no other. -/
theorem executed_unit (r : Clusters) (i c : ℕ) (inst : Instruction) :
    GivesBack k c inst.opcode r ((buildUnit k inst.opcode).executed i inst (c, inst.opcode) r) (fun _ => false) false
      fun fu => fu == .Branch := by
  have hkeep : ∀ r', Keeps r r' → GivesBack k c inst.opcode r
      (if buildUnit k inst.opcode == .Branch then r'.addFree (c, inst.opcode) 1 else r') (fun _ => false) false
      fun fu => fu == .Branch := fun r' h => (GivesBack.of_keeps c inst.opcode h).entry fun fu => fu == .Branch
  have hset : Keeps r { r with storeset := r.storeset.remove (r.placed i).SSID i } := ⟨rfl, rfl, rfl, fun _ => rfl⟩
  cases hfu : buildUnit k inst.opcode <;> rw [hfu] at hkeep
  case Load | SCOORELoad => exact hkeep _ hset
  case Store | SCOOREStore =>
    simp only [FU.executed]
    split
    · exact hkeep _ hset
    · exact hkeep _ (.refl r)
  all_goals exact hkeep _ (.refl r)

/-- A unit that lets an instruction go gives back what the instruction still holds. -/
theorem retire_unit (r : Clusters) (full : Bool) (i c : ℕ) (hex : x.executed = true)
    (hdone : ((buildUnit k x.inst.opcode).retire full i x.inst (c, x.inst.opcode) r).1 = true) :
    GivesBack k c x.inst.opcode r ((buildUnit k x.inst.opcode).retire full i x.inst (c, x.inst.opcode) r).2
      (fun _ => false) false fun fu => holds x fu := by
  have hentry : ∀ r', Keeps r r' → holds x (buildUnit k x.inst.opcode) = true →
      GivesBack k c x.inst.opcode r (r'.addFree (c, x.inst.opcode) 1) (fun _ => false) false fun fu => holds x fu := by
    intro r' h hh
    have hg := (GivesBack.of_keeps (k := k) c x.inst.opcode h).entry fun fu => holds x fu
    rwa [if_pos hh] at hg
  have hnone : holds x (buildUnit k x.inst.opcode) = false →
      GivesBack k c x.inst.opcode r r (fun _ => false) false fun fu => holds x fu := by
    intro hh
    have hg := (GivesBack.of_keeps (k := k) c x.inst.opcode (.refl r)).entry fun fu => holds x fu
    rwa [if_neg (Bool.eq_false_iff.1 hh)] at hg
  have hlsq : Keeps r { r with lsq := r.lsq.remove full i } := ⟨rfl, rfl, rfl, fun _ => rfl⟩
  cases hfu : buildUnit k x.inst.opcode <;> rw [hfu] at hentry hnone hdone
  case Branch => exact hnone (by simp [holds, hex])
  case Load => exact hentry _ hlsq rfl
  case Load_noMemSpec => exact hentry _ (.refl r) rfl
  case Store =>
    simp only [FU.retire] at hdone ⊢
    split_ifs at hdone ⊢ with haddr hperf
    · exact hnone (by simp [holds, haddr])
    · exact hentry _ hlsq (by simp [holds, haddr])
  case Store_noMemSpec =>
    simp only [FU.retire] at hdone ⊢
    split_ifs at hdone ⊢ with haddr hperf
    · exact hnone (by simp [holds, haddr])
    · exact hentry _ (.refl r) (by simp [holds, haddr])
  all_goals exact hnone rfl

/-- **What a callback gives back.** -/
theorem called_clusters {cb : Callback} (hcb : (m.proc.core.insts i).cb = some cb) :
    GivesBack k (m.clusters.placed i).cluster (m.proc.core.insts i).inst.opcode m.clusters (m.called k i)
      (fun kind => recycles kind cb) false fun fu => cb == .executed && fu == .Branch := by
  unfold called
  rw [hcb]
  have hnone := GivesBack.of_keeps (k := k) (m.clusters.placed i).cluster (m.proc.core.insts i).inst.opcode
    (.refl m.clusters)
  cases cb with
  | select =>
    have hno : (fun kind => recycles kind .select) = fun _ => false := by
      funext kind
      cases kind <;> rfl
    rw [hno]
    exact hnone
  | executing =>
    have hwin := hnone.window fun kind => recycles kind .executing
    unfold Clusters.executing
    dsimp only
    cases hk : (k.cluster (m.clusters.placed i).cluster).kind <;> rw [hk] at hwin <;> exact hwin
  | executed =>
    have hwin := (executed_unit (k := k) m.clusters i (m.clusters.placed i).cluster (m.proc.core.insts i).inst).window
      fun kind => recycles kind .executed
    unfold Clusters.executed
    dsimp only
    cases hk : (k.cluster (m.clusters.placed i).cluster).kind <;> rw [hk] at hwin <;> exact hwin

/-- How far the instructions are, after a callback. -/
theorem Fired.recycled {cb : Callback} (h : Fired s s' i cb) (kind : ClusterKind) (j : ℕ) :
    recycled (s'.insts j) kind = (recycled (s.insts j) kind || (decide (j = i) && recycles kind cb)) := by
  cases kind with
  | ExecutingCluster =>
    show Machine.begun _ = _
    rw [h.begun]
    cases cb <;> rfl
  | ExecutedCluster =>
    show (s'.insts j).executed = _
    rw [h.executed]
    cases cb <;> rfl
  | RetiredCluster => cases cb <;> simp [Machine.recycled, recycles]

theorem Fired.holds {cb : Callback} (h : Fired s s' i cb) (fu : FU) (j : ℕ) :
    holds (s'.insts j) fu = (holds (s.insts j) fu && !(decide (j = i) && (cb == .executed && fu == .Branch))) := by
  cases fu with
  | Branch =>
    simp only [Machine.holds, h.executed, beq_self_eq_true, Bool.and_true, Bool.not_or]
  | _ =>
    simp only [Machine.holds, h.inst]
    simp

/-- **A callback** gives back what ends with it. -/
theorem Conserved.fire {p' : GProcessor} (h : Conserved k m) (hf : m.proc.fire k i = some p') :
    Conserved k ⟨p', m.called k i⟩ := by
  obtain ⟨hfire, hrROB, hROB⟩ := GProcessor.fire_eq hf
  obtain ⟨hflight, hmem, cb, hfired⟩ := h.flight.fire hfire
  obtain ⟨hcl, hwin, hreg, hfree⟩ := called_clusters (k := k) hfired.was
  have hl : inFlight ⟨p', m.called k i⟩ = m.inFlight := by
    show p'.rROB ++ p'.ROB = _
    rw [hrROB, hROB]
    rfl
  -- the callback shows that the instruction has not executed
  have hnot : (m.proc.core.insts i).executed = false := by
    refine Bool.eq_false_iff.2 fun hex => ?_
    have hcb := hfired.was
    rw [h.flight.done i hex] at hcb
    cases hcb
  refine ⟨by rw [hl]; exact hflight, fun d => ?_, fun d => ?_, fun u => ?_⟩
  · show Credits ((m.called k i).windowSize d) _ _ _
    rw [hwin, hl]
    refine (h.window d).giveBack h.flight.nodup hmem ?_ ?_
    · intro hg
      rw [Bool.and_eq_true] at hg
      have hrec : recycled (m.proc.core.insts i) (k.cluster d).kind = false := by
        revert hg
        cases (k.cluster d).kind <;> cases cb <;> simp [recycles, recycled, begun, hnot, hfired.was]
      unfold inWindow
      rw [hrec, hg.1]
      rfl
    · intro j _
      unfold inWindow
      dsimp only
      rw [hcl, hfired.recycled]
      by_cases hj : j = i
      · subst hj
        cases (m.clusters.placed j).cluster == d <;> simp
      · simp [hj]
  · show Credits ((m.called k i).regPool d) _ _ _
    rw [hreg, hl, Bool.and_false, if_neg Bool.false_ne_true, Int.add_zero]
    refine (h.regs d).congr fun j _ => ?_
    unfold hasReg
    dsimp only
    rw [hcl, hfired.inst]
  · show Credits ((m.called k i).free u) _ _ _
    rw [hfree, hl]
    refine (h.entries u).giveBack h.flight.nodup hmem ?_ ?_
    · intro hg
      simp only [Bool.and_eq_true, beq_iff_eq] at hg
      obtain ⟨⟨h1, h2⟩, -, h3⟩ := hg
      simp [hasEntry, h1, h2, h3, holds, hnot]
    · intro j _
      unfold hasEntry
      dsimp only
      rw [hcl, hfired.holds, hfired.inst]
      by_cases hj : j = i
      · subst hj
        cases (m.clusters.placed j).cluster == u.1 <;> cases (m.proc.core.insts j).inst.opcode == u.2 <;> simp
      · simp [hj]

/-- A unit that does not let an instruction go changes nothing. -/
theorem retire_unit_not (fu : FU) (full : Bool) (inst : Instruction) (h : (fu.retire full i inst u r).1 = false) :
    (fu.retire full i inst u r).2 = r := by
  cases fu <;> simp only [FU.retire] at h ⊢
  case Store | Store_noMemSpec =>
    split_ifs at h ⊢
    rfl
  all_goals first | rfl | cases h

/-- **What a retirement gives back**, or that it does not take place. -/
theorem retire_clusters (r : Clusters) (full : Bool) (i : ℕ) (hex : x.executed = true) :
    (r.retire k full i x.inst).1 = true ∧
        GivesBack k (r.placed i).cluster x.inst.opcode r (r.retire k full i x.inst).2 (fun kind => !recycled x kind)
          x.inst.hasDstRegister (fun fu => holds x fu) ∨
      (r.retire k full i x.inst).1 = false ∧ (r.retire k full i x.inst).2 = r := by
  unfold Clusters.retire
  dsimp only
  cases hdone : ((buildUnit k x.inst.opcode).retire full i x.inst ((r.placed i).cluster, x.inst.opcode) r).1 with
  | false => exact .inr ⟨rfl, retire_unit_not _ full x.inst hdone⟩
  | true =>
    have hgive := ((retire_unit r full i _ hex hdone).register x.inst.hasDstRegister).window
      fun kind => !recycled x kind
    rw [if_neg (by decide)]
    refine .inl ?_
    cases hk : (k.cluster (r.placed i).cluster).kind <;> rw [hk] at hgive
    case RetiredCluster => exact ⟨rfl, hgive⟩
    all_goals
      rw [if_neg (by simp [recycled, begun, hex])] at hgive
      exact ⟨rfl, hgive⟩

/-- **An instruction retires** and gives back all it still holds. -/
theorem Conserved.retire {p' : GProcessor} {rest : List ℕ} (h : Conserved k m) (hr : m.proc.rROB = i :: rest)
    (hp : m.proc.retire k = some p')
    (hgive : GivesBack k (m.clusters.placed i).cluster (m.proc.core.insts i).inst.opcode m.clusters r'
      (fun kind => !recycled (m.proc.core.insts i) kind) (m.proc.core.insts i).inst.hasDstRegister
      fun fu => holds (m.proc.core.insts i) fu) : Conserved k ⟨p', r'⟩ := by
  obtain ⟨hex, hcore, hrROB, hROB⟩ := GProcessor.retire_eq hr hp
  have hl : m.inFlight = i :: inFlight ⟨p', r'⟩ := by
    show m.proc.rROB ++ m.proc.ROB = i :: (p'.rROB ++ p'.ROB)
    rw [hr, hrROB, hROB, List.cons_append]
  have hf := h.flight
  rw [hl] at hf
  obtain ⟨hni, hnd⟩ := List.nodup_cons.1 hf.nodup
  refine ⟨?_, fun d => ?_, fun d => ?_, fun u => ?_⟩
  · -- what is in flight is what was, without `i`
    show Flight p'.core _
    rw [hcore]
    refine ⟨hf.deps, hnd, fun j hj => hf.lt j (List.mem_cons_of_mem i hj), fun j hj hnot => ?_, hf.done⟩
    by_cases hji : j = i
    · rw [hji]
      exact hex
    · exact hf.gone j hj fun hc => (List.mem_cons.1 hc).elim hji hnot
  · have hleave := h.window d
    rw [hl] at hleave
    show Credits (r'.windowSize d) _ _ _
    rw [hgive.windowSize]
    refine hleave.leave.congr fun j _ => ?_
    unfold inWindow
    dsimp only
    rw [hgive.cluster, hcore]
  · have hleave := h.regs d
    rw [hl] at hleave
    show Credits (r'.regPool d) _ _ _
    rw [hgive.regPool]
    refine hleave.leave.congr fun j _ => ?_
    unfold hasReg
    dsimp only
    rw [hgive.cluster, hcore]
  · have hleave := h.entries u
    rw [hl] at hleave
    show Credits (r'.free u) _ _ _
    rw [hgive.free]
    refine hleave.leave.congr fun j _ => ?_
    unfold hasEntry
    dsimp only
    rw [hgive.cluster, hcore]

/-! ## Runs -/

/-- **A step.** -/
theorem Conserved.step {e : Event} (hs : step k m e = some m') (h : Conserved k m) : Conserved k m' := by
  cases e with
  | addInst t a =>
    obtain rfl := Option.some.inj hs
    exact h.addInst t a
  | fire i =>
    simp only [Machine.step, Option.map_eq_some_iff] at hs
    obtain ⟨p', hp, rfl⟩ := hs
    exact h.fire hp
  | performed i =>
    obtain rfl := Option.some.inj hs
    exact h.keep rfl rfl ⟨rfl, rfl, rfl, cluster_update m.clusters.placed rfl⟩
  | preretire =>
    simp only [Machine.step, Option.map_eq_some_iff] at hs
    obtain ⟨p', hp, rfl⟩ := hs
    obtain ⟨hcore, hl⟩ := GProcessor.preretire_eq hp
    exact h.keep hcore hl (.refl _)
  | retire =>
    simp only [Machine.step] at hs
    split at hs
    · cases hs
    · rename_i i rest hr
      simp only [Option.ite_none_right_eq_some] at hs
      obtain ⟨hex, hs⟩ := hs
      rcases retire_clusters (k := k) m.clusters m.proc.fullLSQ i hex with ⟨hdone, hgive⟩ | ⟨hdone, hsame⟩
      · rw [if_pos hdone, Option.map_eq_some_iff] at hs
        obtain ⟨p', hp, rfl⟩ := hs
        exact h.retire hr hp hgive
      · rw [if_neg (by rw [hdone]; exact Bool.false_ne_true), hsame] at hs
        obtain rfl := Option.some.inj hs
        exact h
  | replay target =>
    obtain rfl := Option.some.inj hs
    obtain ⟨hcore, hrROB, hROB⟩ := GProcessor.replay_eq (k := k) m.proc target
    refine h.keep hcore ?_ (.refl _)
    show (m.proc.replay k target).rROB ++ (m.proc.replay k target).ROB = _
    rw [hrROB, hROB]
    rfl
  | recover =>
    simp only [Machine.step, Option.map_eq_some_iff] at hs
    obtain ⟨p', hp, rfl⟩ := hs
    obtain ⟨hcore, hrROB, hROB⟩ := GProcessor.recover_eq hp
    refine h.keep hcore ?_ (.refl _)
    show p'.rROB ++ p'.ROB = _
    rw [hrROB, hROB]
    rfl
  | storeset ss =>
    obtain rfl := Option.some.inj hs
    exact h.keep rfl rfl ⟨rfl, rfl, rfl, fun _ => rfl⟩

/-- **Resources are conserved.** In every state of every run of either processor: the window entries of a cluster
that are free and those of the instructions that have not given theirs back make `winSize`; its registers that
are free and those of the instructions in flight make `nRegs`; the entries of a unit that are free and those of
its loads and data stores in flight, or of its branches that have not executed, make the size of the
unit. No window and no unit has fewer than no entries. And an `addInst` that stalls leaves the processor,
the counters, the load-store queue and the store set as they are. -/
theorem resources_conserved (k : CpuConfig) (kind : GProcessor.Kind) (es : List Event) {m : Machine}
    (h : run (step k) (init k kind) es = some m) :
    (∀ c, m.clusters.windowSize c + m.inFlight.countP (m.inWindow k c) = (k.cluster c).winSize ∧
        0 ≤ m.clusters.windowSize c) ∧
      (∀ c, m.clusters.regPool c + m.inFlight.countP (m.hasReg c) = (k.cluster c).nRegs) ∧
      (∀ u, m.clusters.free u + m.inFlight.countP (m.hasEntry k u) = (buildUnit k u.2).size k ∧
        0 ≤ m.clusters.free u) ∧
      ∀ t a, (m.addInst k t a).1 ≠ .NoStall →
        ∃ b, (m.addInst k t a).2 = { m with clusters := { m.clusters with blockUntil := b } } := by
  have hcons : Conserved k m := run_inv (fun _ _ _ hs hI => hI.step hs) h (conserved_init kind)
  refine ⟨fun c => ?_, fun c => (hcons.regs c).sum, fun u => ?_, fun t a hs => hcons.addInst_stall t a hs⟩
  · exact ⟨(hcons.window c).sum, (hcons.window c).nonneg⟩
  · exact ⟨(hcons.entries u).sum, (hcons.entries u).nonneg⟩

/-- A core with one cluster, which has room for one load. -/
def oneLoad : CpuConfig where
  scooreMemory := false
  noMemSpec := false
  maxBranches := 1
  maxLoads := 1
  maxStores := 1
  StoreSetSize := 16
  MaxROBSize := 8
  NoMemoryReplay := false
  serialize := 0
  cluster _ := ⟨.ExecutedCluster, 4, 16⟩

def load (pc : ℕ) : Arriving := ⟨⟨⟨.iLALU_LD, 1, 0, 2, LREG_InvalidOutput⟩, pc, pc⟩, 0x100, 0, 0⟩

/-- A load has executed and not retired: the second one finds no entry, and the window has all of its own. -/
theorem resources_conserved_oneLoad :
    ∃ m, run (step oneLoad) (init oneLoad (.OoO 0 0)) [.addInst 0 (load 4), .fire 0, .fire 0, .fire 0] = some m ∧
      m.clusters.windowSize 0 = 4 ∧
      m.clusters.free (0, .iLALU_LD) + m.inFlight.countP (m.hasEntry oneLoad (0, .iLALU_LD)) = 1 ∧
      (m.addInst oneLoad 3 (load 8)).1 = .OutsLoadsStall ∧
      ∃ b, (m.addInst oneLoad 3 (load 8)).2 = { m with clusters := { m.clusters with blockUntil := b } } := by
  have hend : (run (step oneLoad) (init oneLoad (.OoO 0 0)) [.addInst 0 (load 4), .fire 0, .fire 0, .fire 0]).any
      (fun m => m.clusters.windowSize 0 == 4 && (m.addInst oneLoad 3 (load 8)).1 == .OutsLoadsStall) = true := by
    decide +kernel
  obtain ⟨m, hrun, hm⟩ := (Option.any_eq_true _ _).1 hend
  rw [Bool.and_eq_true, beq_iff_eq, beq_iff_eq] at hm
  obtain ⟨-, -, hfree, hstall⟩ := resources_conserved oneLoad (.OoO 0 0) _ hrun
  refine ⟨m, hrun, hm.1, (hfree (0, .iLALU_LD)).1, hm.2, hstall 3 (load 8) ?_⟩
  rw [hm.2]
  decide

end Machine

end Esesc.Core
