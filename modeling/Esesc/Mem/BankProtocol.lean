import Esesc.Mem.MemController

/-!
# The bank protocol of the memory controller (`scheduleNextAction`)

`scheduleNextAction` looks for the oldest entry whose row is open, the oldest whose bank is closed,
and the banks that are open with another row than their entries need. The first two start from the
index `numBanks + 1` and compare with the time found there; the third starts from bank 0.

* `Scanned`, `scan_spec`: what the first loop has found.
* `Swept`, `sweep_spec`: what the second loop has found.
* `safe_iff`: one call uses the array within its bounds, and starts only what the banks allow,
  exactly when no entry can be served, no entry's bank is closed, and the default of the third search
  is not left standing.
* `run_safe_iff`: the same along every run.
-/

namespace Esesc.Mem.MemController

open Esesc.Lib

variable {k : RamConfig} {now : Time} {m : MemController} {f : FCFSField}

/-- The row of the entry is open. -/
def Ready (s : ℕ → BankStatus) (f : FCFSField) : Prop :=
  (s f.bank).state = .active ∧ (s f.bank).activeRow = f.row

/-- The bank of the entry is open with another row. -/
def Conflicts (s : ℕ → BankStatus) (f : FCFSField) : Prop :=
  (s f.bank).state = .active ∧ (s f.bank).activeRow ≠ f.row

/-- The bank of the entry is closed. -/
def Closed (s : ℕ → BankStatus) (f : FCFSField) : Prop := (s f.bank).state = .idle

instance (s : ℕ → BankStatus) (f : FCFSField) : Decidable (Ready s f) := inferInstanceAs (Decidable (_ ∧ _))
instance (s : ℕ → BankStatus) (f : FCFSField) : Decidable (Conflicts s f) := inferInstanceAs (Decidable (_ ∧ _))
instance (s : ℕ → BankStatus) (f : FCFSField) : Decidable (Closed s f) := inferInstanceAs (Decidable (_ = _))

/-! ## The first loop -/

/-- The arrays differ in the flags only. -/
def SameBanks (s s' : ℕ → BankStatus) : Prop :=
  ∀ b, (s' b).state = (s b).state ∧ (s' b).activeRow = (s b).activeRow ∧ (s' b).bankTime = (s b).bankTime

theorem SameBanks.refl (s : ℕ → BankStatus) : SameBanks s s := fun _ => ⟨rfl, rfl, rfl⟩

theorem SameBanks.trans {s t u : ℕ → BankStatus} (h : SameBanks s t) (h' : SameBanks t u) : SameBanks s u :=
  fun b => ⟨(h' b).1.trans (h b).1, (h' b).2.1.trans (h b).2.1, (h' b).2.2.trans (h b).2.2⟩

theorem SameBanks.update {s : ℕ → BankStatus} {b : ℕ} {st : BankStatus} (h₁ : st.state = (s b).state)
    (h₂ : st.activeRow = (s b).activeRow) (h₃ : st.bankTime = (s b).bankTime) :
    SameBanks s (Function.update s b st) := by
  intro b'
  rcases eq_or_ne b' b with rfl | hne
  · rw [Function.update_self]
    exact ⟨h₁, h₂, h₃⟩
  · rw [Function.update_of_ne hne]
    exact ⟨rfl, rfl, rfl⟩

theorem SameBanks.ready_iff {s s' : ℕ → BankStatus} (h : SameBanks s s') : Ready s' f ↔ Ready s f := by
  unfold Ready
  rw [(h f.bank).1, (h f.bank).2.1]

theorem SameBanks.conflicts_iff {s s' : ℕ → BankStatus} (h : SameBanks s s') : Conflicts s' f ↔ Conflicts s f := by
  unfold Conflicts
  rw [(h f.bank).1, (h f.bank).2.1]

theorem SameBanks.closed_iff {s s' : ℕ → BankStatus} (h : SameBanks s s') : Closed s' f ↔ Closed s f := by
  unfold Closed
  rw [(h f.bank).1]

/-- What the first loop has found after the entries `fs`, from the array `s`. -/
structure Scanned (k : RamConfig) (s : ℕ → BankStatus) (fs : List FCFSField) (sc : Scan) : Prop where
  same : SameBanks s sc.bankState
  columnFound : sc.oldestColumnFound = true ↔ ∃ f ∈ fs, Ready s f
  rowFound : sc.oldestRowFound = true ↔ ∃ f ∈ fs, Closed s f
  cols : sc.oldestColumnFound = false → sc.oldestReadyColsBank = k.numBanks + 1
  rows : sc.oldestRowFound = false → sc.oldestReadyRowsBank = k.numBanks + 1
  within : sc.oldestColumnFound = false → sc.oldestRowFound = false → ∀ i ∈ sc.used, ∃ f ∈ fs, f.bank = i
  beyond : sc.oldestColumnFound = true ∨ sc.oldestRowFound = true → k.numBanks + 1 ∈ sc.used
  bpend : ∀ b, (sc.bankState b).bpend = true ↔ (s b).bpend = true ∨ ∃ f ∈ fs, f.bank = b ∧ Conflicts s f
  cpend : sc.oldestColumnFound = false → ∀ b, (sc.bankState b).cpend = (s b).cpend

section Entry

variable {s : ℕ → BankStatus} {sc : Scan} {fs : List FCFSField}

theorem entry_ready (hr : Ready sc.bankState f) (hnew : sc.oldestColumnFound = false) :
    ∃ cols, sc.entry f = { sc with
      bankState := Function.update sc.bankState f.bank { sc.bankState f.bank with cpend := true }
      oldestReadyColsBank := cols, oldestColumnFound := true
      used := sc.used ++ [f.bank, sc.oldestReadyColsBank] ++ [f.bank] ++ [f.bank] } := by
  obtain ⟨hst, hrow⟩ := hr
  simp only [Scan.entry, Scan.column, Scan.conflict, Scan.closed, hnew, hst, hrow, Function.update_self, Bool.not_false,
    ne_eq, not_true_eq_false, and_self, and_false, if_true, if_false, reduceCtorEq]
  exact ⟨_, rfl⟩

theorem entry_conflicts (hc : Conflicts sc.bankState f) :
    sc.entry f = { sc with
      bankState := Function.update sc.bankState f.bank { sc.bankState f.bank with bpend := true }
      used := sc.used ++ [f.bank] ++ [f.bank] ++ [f.bank] } := by
  obtain ⟨hst, hrow⟩ := hc
  simp only [Scan.entry, Scan.column, Scan.conflict, Scan.closed, hst, hrow, Function.update_self, ne_eq,
    not_false_eq_true, and_self, and_false, if_true, if_false, reduceCtorEq]

theorem entry_closed (hc : Closed sc.bankState f) (hnew : sc.oldestRowFound = false) :
    ∃ rows row, sc.entry f = { sc with
      oldestReadyRow := row, oldestReadyRowsBank := rows, oldestRowFound := true
      used := sc.used ++ [f.bank] ++ [f.bank] ++ [f.bank, sc.oldestReadyRowsBank] } := by
  have hst : (sc.bankState f.bank).state = .idle := hc
  simp only [Scan.entry, Scan.column, Scan.conflict, Scan.closed, hnew, hst, Bool.not_false, false_and, and_false,
    and_self, if_true, if_false, reduceCtorEq]
  exact ⟨_, _, rfl⟩

/-- An entry that finds nothing new leaves the locals as they are. -/
theorem entry_other (hr : Ready sc.bankState f → sc.oldestColumnFound = true) (hc : ¬Conflicts sc.bankState f)
    (hi : Closed sc.bankState f → sc.oldestRowFound = true) :
    sc.entry f = { sc with used := sc.used ++ [f.bank] ++ [f.bank] ++ [f.bank] } := by
  have h₁ : ¬((!sc.oldestColumnFound) = true ∧ (sc.bankState f.bank).state = .active ∧
      (sc.bankState f.bank).activeRow = f.row) := by
    rintro ⟨hnew, hready⟩
    simp [hr hready] at hnew
  have h₂ : ¬((!sc.oldestRowFound) = true ∧ (sc.bankState f.bank).state = .idle) := by
    rintro ⟨hnew, hidle⟩
    simp [hi hidle] at hnew
  have hc : ¬((sc.bankState f.bank).state = .active ∧ (sc.bankState f.bank).activeRow ≠ f.row) := hc
  simp only [Scan.entry, Scan.column, if_neg h₁, Scan.conflict, if_neg hc, Scan.closed, if_neg h₂]

theorem exists_mem_concat {P : FCFSField → Prop} : (∃ g ∈ fs ++ [f], P g) ↔ (∃ g ∈ fs, P g) ∨ P f := by
  simp [or_and_right, exists_or]

theorem within_concat {used new : List ℕ} (h : ∀ i ∈ used, ∃ g ∈ fs, g.bank = i) (hnew : ∀ i ∈ new, i = f.bank) :
    ∀ i ∈ used ++ new, ∃ g ∈ fs ++ [f], g.bank = i := by
  intro i hi
  rw [exists_mem_concat]
  rcases List.mem_append.1 hi with hi | hi
  · exact .inl (h i hi)
  · exact .inr (hnew i hi).symm

/-- The flag that an entry raises, seen from every bank. -/
theorem bpend_update (s : ℕ → BankStatus) (b b' : ℕ) :
    (Function.update s b { s b with bpend := true } b').bpend = true ↔ (s b').bpend = true ∨ b = b' := by
  rcases eq_or_ne b' b with rfl | hne
  · simp
  · rw [Function.update_of_ne hne, or_iff_left hne.symm]

theorem Scanned.ready (h : Scanned k s fs sc) (hr : Ready s f) (hnew : sc.oldestColumnFound = false) :
    Scanned k s (fs ++ [f]) (sc.entry f) := by
  have hnc : ¬Conflicts s f := fun hc => hc.2 hr.2
  have hni : ¬Closed s f := fun hi => by simp [Closed, hr.1] at hi
  obtain ⟨cols, heq⟩ := entry_ready (h.same.ready_iff.2 hr) hnew
  rw [heq]
  refine ⟨h.same.trans (.update rfl rfl rfl), ?_, ?_, by simp, h.rows, by simp, ?_, ?_, by simp⟩
  · exact iff_of_true rfl (exists_mem_concat.2 (.inr hr))
  · rw [exists_mem_concat, or_iff_left hni]
    exact h.rowFound
  · intro _
    simp [h.cols hnew]
  · intro b
    have hcell : (Function.update sc.bankState f.bank { sc.bankState f.bank with cpend := true } b).bpend =
        (sc.bankState b).bpend := by
      rcases eq_or_ne b f.bank with rfl | hne <;> simp [*]
    rw [hcell, h.bpend, exists_mem_concat, or_iff_left (b := _ ∧ _) fun hb => hnc hb.2]

theorem Scanned.conflicts (h : Scanned k s fs sc) (hc : Conflicts s f) : Scanned k s (fs ++ [f]) (sc.entry f) := by
  have hnr : ¬Ready s f := fun hr => hc.2 hr.2
  have hni : ¬Closed s f := fun hi => by simp [Closed, hc.1] at hi
  rw [entry_conflicts (h.same.conflicts_iff.2 hc)]
  refine ⟨h.same.trans (.update rfl rfl rfl), ?_, ?_, h.cols, h.rows, ?_, ?_, ?_, ?_⟩
  · rw [exists_mem_concat, or_iff_left hnr]
    exact h.columnFound
  · rw [exists_mem_concat, or_iff_left hni]
    exact h.rowFound
  · intro h₁ h₂
    simp only [List.append_assoc]
    exact within_concat (h.within h₁ h₂) (by simp)
  · intro hfound
    simp [h.beyond hfound]
  · intro b
    rw [bpend_update, h.bpend, exists_mem_concat, and_iff_left hc, or_assoc]
  · intro hnew b
    rw [← h.cpend hnew b]
    rcases eq_or_ne b f.bank with rfl | hne <;> simp [*]

theorem Scanned.closed (h : Scanned k s fs sc) (hi : Closed s f) (hnew : sc.oldestRowFound = false) :
    Scanned k s (fs ++ [f]) (sc.entry f) := by
  have hidle : (s f.bank).state = .idle := hi
  have hnr : ¬Ready s f := fun hr => by simp [Ready, hidle] at hr
  have hnc : ¬Conflicts s f := fun hc => by simp [Conflicts, hidle] at hc
  obtain ⟨rows, row, heq⟩ := entry_closed (h.same.closed_iff.2 hi) hnew
  rw [heq]
  refine ⟨h.same, ?_, ?_, h.cols, by simp, by simp, ?_, ?_, h.cpend⟩
  · rw [exists_mem_concat, or_iff_left hnr]
    exact h.columnFound
  · exact iff_of_true rfl (exists_mem_concat.2 (.inr hi))
  · intro _
    simp [h.rows hnew]
  · intro b
    rw [h.bpend, exists_mem_concat, or_iff_left (b := _ ∧ _) fun hb => hnc hb.2]

theorem Scanned.entry (h : Scanned k s fs sc) (f : FCFSField) : Scanned k s (fs ++ [f]) (sc.entry f) := by
  by_cases hr : Ready s f ∧ sc.oldestColumnFound = false
  · exact h.ready hr.1 hr.2
  by_cases hc : Conflicts s f
  · exact h.conflicts hc
  by_cases hi : Closed s f ∧ sc.oldestRowFound = false
  · exact h.closed hi.1 hi.2
  -- nothing new is found: what the entry would add is there already
  have hr : Ready s f → sc.oldestColumnFound = true := by simpa using hr
  have hi : Closed s f → sc.oldestRowFound = true := by simpa using hi
  rw [entry_other (fun h' => hr (h.same.ready_iff.1 h')) (mt h.same.conflicts_iff.1 hc)
    fun h' => hi (h.same.closed_iff.1 h')]
  refine ⟨h.same, ?_, ?_, h.cols, h.rows, ?_, ?_, ?_, h.cpend⟩
  · rw [exists_mem_concat, or_iff_left_of_imp fun h' => h.columnFound.1 (hr h')]
    exact h.columnFound
  · rw [exists_mem_concat, or_iff_left_of_imp fun h' => h.rowFound.1 (hi h')]
    exact h.rowFound
  · intro h₁ h₂
    simp only [List.append_assoc]
    exact within_concat (h.within h₁ h₂) (by simp)
  · intro hfound
    simp [h.beyond hfound]
  · intro b
    rw [h.bpend, exists_mem_concat, or_iff_left (b := _ ∧ _) fun hb => hc hb.2]

theorem Scanned.foldl (h : Scanned k s fs sc) (gs : List FCFSField) :
    Scanned k s (fs ++ gs) (gs.foldl Scan.entry sc) := by
  induction gs generalizing fs sc with
  | nil => simpa using h
  | cons g gs ih => simpa using ih (h.entry g)

end Entry

theorem scan_spec (k : RamConfig) (m : MemController) : Scanned k m.bankState m.curMemRequests (m.scan k) := by
  have h₀ : Scanned k m.bankState [] ⟨m.bankState, k.numBanks + 1, k.numBanks + 1, 0, false, false, []⟩ :=
    ⟨.refl _, by simp, by simp, fun _ => rfl, fun _ => rfl, by simp, by simp, by simp, fun _ _ => rfl⟩
  exact h₀.foldl m.curMemRequests

/-! ## The second loop -/

/-- A bank that the second loop takes for one that only waits for another row. -/
def Candidate (s : ℕ → BankStatus) (b : ℕ) : Prop := (s b).bpend = true ∧ (s b).cpend = false

/-- What the second loop has found after the first `j` banks, from the array `s`. -/
structure Swept (s : ℕ → BankStatus) (j : ℕ) (sw : Sweep) : Prop where
  same : SameBanks s sw.bankState
  rest : ∀ b, j ≤ b → sw.bankState b = s b
  cleared : ∀ b < j, (sw.bankState b).bpend = false ∧ (sw.bankState b).cpend = false
  found : sw.oldestBankFound = true ↔ ∃ b < j, Candidate s b
  oldest : (sw.oldestbank = 0 ∧ ∀ b < j, Candidate s b → (s 0).bankTime ≤ (s b).bankTime) ∨
    (sw.oldestbank < j ∧ Candidate s sw.oldestbank ∧ (s sw.oldestbank).bankTime < (s 0).bankTime)
  used : ∀ i ∈ sw.used, i < j ∨ i = 0

theorem exists_lt_succ {P : ℕ → Prop} {j : ℕ} : (∃ b < j + 1, P b) ↔ (∃ b < j, P b) ∨ P j := by
  simp only [Nat.lt_succ_iff_lt_or_eq, or_and_right, exists_or, exists_eq_left]

theorem Swept.bank {s : ℕ → BankStatus} {j : ℕ} {sw : Sweep} (h : Swept s j sw) : Swept s (j + 1) (sw.bank j) := by
  have hj : sw.bankState j = s j := h.rest j le_rfl
  have hold : (sw.bankState sw.oldestbank).bankTime = (s sw.oldestbank).bankTime := (h.same _).2.2
  have hsame : SameBanks s (Function.update sw.bankState j { s j with bpend := false, cpend := false }) :=
    h.same.trans (.update (by rw [hj]) (by rw [hj]) (by rw [hj]))
  have hrest : ∀ b, j + 1 ≤ b →
      Function.update sw.bankState j { s j with bpend := false, cpend := false } b = s b := by
    intro b hb
    rw [Function.update_of_ne (by omega)]
    exact h.rest b (by omega)
  have hcleared : ∀ b < j + 1,
      (Function.update sw.bankState j { s j with bpend := false, cpend := false } b).bpend = false ∧
      (Function.update sw.bankState j { s j with bpend := false, cpend := false } b).cpend = false := by
    intro b hb
    rcases eq_or_ne b j with rfl | hne
    · simp
    · rw [Function.update_of_ne hne]
      exact h.cleared b (by omega)
  by_cases hc : Candidate s j
  · have htest : (s j).bpend = true ∧ (!(s j).cpend) = true := ⟨hc.1, by simp [hc.2]⟩
    simp only [Sweep.bank, hj, hold, if_pos htest]
    refine ⟨hsame, hrest, hcleared, iff_of_true rfl ⟨j, by omega, hc⟩, ?_, ?_⟩
    · dsimp only
      split
      · -- the bank is older than the one found so far
        rename_i hlt
        rcases h.oldest with ⟨h0, -⟩ | ⟨-, -, hlt0⟩
        · rw [h0] at hlt
          exact .inr ⟨by omega, hc, hlt⟩
        · exact .inr ⟨by omega, hc, BitVec.lt_trans hlt hlt0⟩
      · rename_i hge
        have hge : (s sw.oldestbank).bankTime ≤ (s j).bankTime := BitVec.not_lt.1 hge
        rcases h.oldest with ⟨h0, hall⟩ | ⟨hlt, hcand, hlt0⟩
        · refine .inl ⟨h0, ?_⟩
          intro b hb hcb
          rcases Nat.lt_succ_iff_lt_or_eq.1 hb with hb | rfl
          · exact hall b hb hcb
          · rwa [h0] at hge
        · exact .inr ⟨by omega, hcand, hlt0⟩
    · intro i hi
      have hb : sw.oldestbank < j ∨ sw.oldestbank = 0 := by
        rcases h.oldest with ⟨h0, -⟩ | ⟨hlt, -⟩ <;> omega
      simp only [List.mem_append, List.mem_cons, List.not_mem_nil, or_false] at hi
      rcases hi with hi | rfl | rfl
      · have := h.used i hi
        omega
      · omega
      · omega
  · have htest : ¬((s j).bpend = true ∧ (!(s j).cpend) = true) := by
      simpa [Candidate] using hc
    simp only [Sweep.bank, hj, hold, if_neg htest]
    refine ⟨hsame, hrest, hcleared, ?_, ?_, ?_⟩
    · rw [exists_lt_succ, or_iff_left hc]
      exact h.found
    · rcases h.oldest with ⟨h0, hall⟩ | ⟨hlt, hcand, hlt0⟩
      · refine .inl ⟨h0, ?_⟩
        intro b hb hcb
        rcases Nat.lt_succ_iff_lt_or_eq.1 hb with hb | rfl
        · exact hall b hb hcb
        · exact absurd hcb hc
      · exact .inr ⟨by dsimp only; omega, hcand, hlt0⟩
    · intro i hi
      simp only [List.mem_append, List.mem_singleton] at hi
      rcases hi with hi | rfl
      · have := h.used i hi
        omega
      · omega

theorem sweep_spec (k : RamConfig) (s : ℕ → BankStatus) : Swept s k.numBanks (sweep k s) := by
  unfold sweep
  induction k.numBanks with
  | zero => exact ⟨.refl _, fun _ _ => rfl, by simp, by simp, .inl ⟨rfl, by simp⟩, by simp⟩
  | succ j ih =>
    rw [List.range_succ, List.foldl_append]
    exact ih.bank

/-! ## One call -/

/-- The indices that a call of `manageRam` uses on `bankState`, when it calls `scheduleNextAction` in `m`.
Its own loop goes over the banks. -/
def indices (k : RamConfig) (m : MemController) : List ℕ :=
  List.range k.numBanks ++ ((m.scan k).used ++ ((sweep k (m.scan k).bankState).used ++
    ((m.command k).map Command.bank).toList))

/-- Bank `b` is open, with another row than the oldest entry for it needs, and no entry for it can be
served. -/
def MayPrecharge (m : MemController) (b : ℕ) : Prop :=
  (m.bankState b).state = .active ∧
  (∃ f, m.curMemRequests.find? (fun f => f.bank == b) = some f ∧ (m.bankState b).activeRow ≠ f.row) ∧
  ∀ f ∈ m.curMemRequests, f.bank = b → ¬Ready m.bankState f

/-- The bank is in the state that the operation starts from. -/
def Allowed (m : MemController) : Command → Prop
  | .precharge b => MayPrecharge m b
  | .access _ => True
  | .activate b _ => (m.bankState b).state = .idle

/-- The protocol, for the call of `scheduleNextAction` in `m`. -/
def Safe (k : RamConfig) (m : MemController) : Prop :=
  (∀ i ∈ indices k m, i < k.numBanks) ∧ ∀ c, m.command k = some c → Allowed m c

/-- An entry waits for another row of bank `b`. -/
def Waiting (m : MemController) (b : ℕ) : Prop := ∃ f ∈ m.curMemRequests, f.bank = b ∧ Conflicts m.bankState f

/-- No entry can be served, no entry's bank is closed, and if entries wait for another row then bank 0
has one of them or one of their banks is older than bank 0. -/
structure Calm (k : RamConfig) (m : MemController) : Prop where
  noReady : ∀ f ∈ m.curMemRequests, ¬Ready m.bankState f
  noClosed : ∀ f ∈ m.curMemRequests, ¬Closed m.bankState f
  notDefault : (∃ b < k.numBanks, Waiting m b) →
    Waiting m 0 ∨ ∃ b < k.numBanks, Waiting m b ∧ (m.bankState b).bankTime < (m.bankState 0).bankTime

/-- What holds between calls: no flag is left raised, and the entries name banks of the array. -/
structure Tidy (k : RamConfig) (m : MemController) : Prop where
  flags : ∀ b < k.numBanks, (m.bankState b).bpend = false ∧ (m.bankState b).cpend = false
  banks : ∀ f ∈ m.curMemRequests ++ m.overflowMemoryRequests, f.bank < k.numBanks

theorem mayPrecharge_iff {b : ℕ} (hready : ∀ f ∈ m.curMemRequests, ¬Ready m.bankState f) :
    MayPrecharge m b ↔ Waiting m b := by
  constructor
  · rintro ⟨hst, ⟨f, hfind, hrow⟩, -⟩
    have hb : f.bank = b := by simpa using List.find?_some hfind
    exact ⟨f, List.mem_of_find?_eq_some hfind, hb, by rw [hb]; exact hst, by rwa [hb]⟩
  · rintro ⟨f, hf, rfl, hst, -⟩
    refine ⟨hst, ?_, fun g hg _ => hready g hg⟩
    cases hfind : m.curMemRequests.find? (fun g => g.bank == f.bank) with
    | none =>
      rw [List.find?_eq_none] at hfind
      exact absurd (by simp) (hfind f hf)
    | some g =>
      have hb : g.bank = f.bank := by simpa using List.find?_some hfind
      refine ⟨g, rfl, fun hrow => hready g (List.mem_of_find?_eq_some hfind) ?_⟩
      exact ⟨by rw [hb]; exact hst, by rw [hb]; exact hrow⟩

theorem columnFound_eq_false (hready : ∀ f ∈ m.curMemRequests, ¬Ready m.bankState f) :
    (m.scan k).oldestColumnFound = false := by
  rw [← Bool.not_eq_true, (scan_spec k m).columnFound]
  rintro ⟨f, hf, hr⟩
  exact hready f hf hr

theorem rowFound_eq_false (hclosed : ∀ f ∈ m.curMemRequests, ¬Closed m.bankState f) :
    (m.scan k).oldestRowFound = false := by
  rw [← Bool.not_eq_true, (scan_spec k m).rowFound]
  rintro ⟨f, hf, hi⟩
  exact hclosed f hf hi

/-- Whatever the searches find leads the first loop behind the array. -/
theorem calm_of_within (hin : ∀ i ∈ indices k m, i < k.numBanks) :
    (∀ f ∈ m.curMemRequests, ¬Ready m.bankState f) ∧ ∀ f ∈ m.curMemRequests, ¬Closed m.bankState f := by
  have hscan := scan_spec k m
  have hnot : ¬((m.scan k).oldestColumnFound = true ∨ (m.scan k).oldestRowFound = true) := by
    intro hfound
    have := hin (k.numBanks + 1) (by simp [indices, hscan.beyond hfound])
    omega
  constructor
  · intro f hf hr
    exact hnot (.inl (hscan.columnFound.2 ⟨f, hf, hr⟩))
  · intro f hf hi
    exact hnot (.inr (hscan.rowFound.2 ⟨f, hf, hi⟩))

section Call

variable (h : Tidy k m)
include h

/-- Without an entry to serve, the flags of the second loop are the banks that wait. -/
theorem candidate_iff (hready : ∀ f ∈ m.curMemRequests, ¬Ready m.bankState f) {b : ℕ} (hb : b < k.numBanks) :
    Candidate (m.scan k).bankState b ↔ Waiting m b := by
  have hscan := scan_spec k m
  unfold Candidate Waiting
  rw [hscan.bpend, hscan.cpend (columnFound_eq_false hready), (h.flags b hb).1, (h.flags b hb).2]
  simp

theorem command_of_calm (hready : ∀ f ∈ m.curMemRequests, ¬Ready m.bankState f)
    (hclosed : ∀ f ∈ m.curMemRequests, ¬Closed m.bankState f) :
    (¬(∃ b < k.numBanks, Waiting m b) ∧ m.command k = none) ∨
    ((∃ b < k.numBanks, Waiting m b) ∧
      m.command k = some (.precharge (sweep k (m.scan k).bankState).oldestbank)) := by
  have hsweep := sweep_spec k (m.scan k).bankState
  have hfound : (sweep k (m.scan k).bankState).oldestBankFound = true ↔ ∃ b < k.numBanks, Waiting m b := by
    rw [hsweep.found]
    exact exists_congr fun b => and_congr_right fun hb => candidate_iff h hready hb
  have hcol : ¬(m.scan k).oldestColumnFound = true := by simp [columnFound_eq_false hready]
  have hrow : ¬(m.scan k).oldestRowFound = true := by simp [rowFound_eq_false hclosed]
  by_cases hw : ∃ b < k.numBanks, Waiting m b
  · exact .inr ⟨hw, by simp only [command, if_pos (hfound.2 hw)]⟩
  · exact .inl ⟨hw, by simp only [command, if_neg (mt hfound.1 hw), if_neg hcol, if_neg hrow]⟩

/-- The bank that the second loop ends with is one that waits exactly when its default is. -/
theorem waiting_oldest_iff (hready : ∀ f ∈ m.curMemRequests, ¬Ready m.bankState f) :
    Waiting m (sweep k (m.scan k).bankState).oldestbank ↔
      Waiting m 0 ∨ ∃ b < k.numBanks, Waiting m b ∧ (m.bankState b).bankTime < (m.bankState 0).bankTime := by
  have htime : ∀ b, ((m.scan k).bankState b).bankTime = (m.bankState b).bankTime :=
    fun b => ((scan_spec k m).same b).2.2
  rcases (sweep_spec k (m.scan k).bankState).oldest with ⟨h0, hall⟩ | ⟨hlt, hcand, hold⟩
  · rw [h0]
    refine ⟨.inl, ?_⟩
    rintro (hw | ⟨b, hb, hw, hlt⟩)
    · exact hw
    · have hle := hall b hb ((candidate_iff h hready hb).2 hw)
      rw [htime, htime] at hle
      exact absurd hlt (BitVec.not_lt.2 hle)
  · have hw := (candidate_iff h hready hlt).1 hcand
    rw [htime, htime] at hold
    exact iff_of_true hw (.inr ⟨_, hlt, hw, hold⟩)

/-- **One call.** The protocol is kept exactly in the calm states. -/
theorem safe_iff : Safe k m ↔ Calm k m := by
  constructor
  · rintro ⟨hin, hallowed⟩
    obtain ⟨hready, hclosed⟩ := calm_of_within hin
    refine ⟨hready, hclosed, fun hw => ?_⟩
    rcases command_of_calm h hready hclosed with ⟨hno, -⟩ | ⟨-, hcmd⟩
    · exact absurd hw hno
    · rw [← waiting_oldest_iff h hready, ← mayPrecharge_iff hready]
      exact hallowed _ hcmd
  · rintro ⟨hready, hclosed, hdefault⟩
    have hscan := scan_spec k m
    have hsweep := sweep_spec k (m.scan k).bankState
    have hpos := k.banks_pos
    have hold : (sweep k (m.scan k).bankState).oldestbank < k.numBanks := by
      rcases hsweep.oldest with ⟨h0, -⟩ | ⟨hlt, -⟩ <;> omega
    have hcmd := command_of_calm h hready hclosed
    refine ⟨?_, ?_⟩
    · intro i hi
      simp only [indices, List.mem_append, List.mem_range, Option.mem_toList, Option.map_eq_some_iff] at hi
      rcases hi with hi | hi | hi | ⟨c, hc, rfl⟩
      · exact hi
      · obtain ⟨f, hf, rfl⟩ := hscan.within (columnFound_eq_false hready) (rowFound_eq_false hclosed) i hi
        exact h.banks f (List.mem_append_left _ hf)
      · have := hsweep.used i hi
        omega
      · rcases hcmd with ⟨-, hnone⟩ | ⟨-, hsome⟩
        · rw [hnone] at hc
          cases hc
        · obtain rfl := Option.some.inj (hsome.symm.trans hc)
          exact hold
    · intro c hc
      rcases hcmd with ⟨-, hnone⟩ | ⟨hw, hsome⟩
      · rw [hnone] at hc
        cases hc
      · obtain rfl := Option.some.inj (hsome.symm.trans hc)
        exact (mayPrecharge_iff hready).2 ((waiting_oldest_iff h hready).2 (hdefault hw))

end Call

/-! ## Every run -/

theorem Tidy.setState (h : Tidy k m) (b : ℕ) (p : BankPhase) : Tidy k (m.setState b p) := by
  refine ⟨?_, h.banks⟩
  intro b' hb'
  rcases eq_or_ne b' b with rfl | hne
  · simpa [MemController.setState] using h.flags b' hb'
  · simpa [MemController.setState, Function.update_of_ne hne] using h.flags b' hb'

theorem Tidy.completeBank (h : Tidy k m) (b : ℕ) : Tidy k (completeBank k now m b) := by
  rcases completeBank_cases k now m b with ⟨-, p, heq⟩ | ⟨-, -, heq⟩
  · rw [heq]
    exact h.setState b p
  · rw [heq]
    have hset := h.setState b .active
    rcases completeFirst_cases now { m.setState b .active with finished := m.finished ++ [b] } b with
      ⟨-, heq'⟩ | ⟨pre, f, post, hcur, -, -, heq'⟩ <;> rw [heq']
    · exact ⟨hset.flags, hset.banks⟩
    · refine ⟨hset.flags, fun g hg => hset.banks g ?_⟩
      have hcur : (m.setState b .active).curMemRequests = pre ++ f :: post := hcur
      have hg : g ∈ pre ++ post ++ (m.setState b .active).overflowMemoryRequests := hg
      rw [hcur]
      simp only [List.mem_append, List.mem_cons] at hg ⊢
      rcases hg with (hg | hg) | hg
      · exact .inl (.inl hg)
      · exact .inl (.inr (.inr hg))
      · exact .inr hg

theorem Tidy.refilled (h : Tidy k m) : Tidy k (m.refilled k now) := by
  have hall : Tidy k (m.completeAll k now) := by
    unfold completeAll
    generalize List.range k.numBanks = bs
    induction bs generalizing m with
    | nil => exact h
    | cons b bs ih => exact ih (h.completeBank b)
  refine ⟨hall.flags, ?_⟩
  simp only [MemController.refilled, transferOverflowMemory]
  rw [transfer_append]
  exact hall.banks

theorem Tidy.enqueue (h : Tidy k m) (mreq : MemRequest) : Tidy k (m.enqueue k now mreq) := by
  refine ⟨h.flags, ?_⟩
  intro f hf
  simp only [MemController.enqueue, ← List.append_assoc] at hf
  rcases List.mem_append.1 hf with hf | hf
  · exact h.banks f hf
  · obtain rfl := List.mem_singleton.1 hf
    exact k.getBank_lt _

theorem Tidy.scheduleNextAction (h : Tidy k m) : Tidy k (m.scheduleNextAction k now) := by
  have hcleared := (sweep_spec k (m.scan k).bankState).cleared
  unfold MemController.scheduleNextAction
  dsimp only
  split
  · exact ⟨hcleared, h.banks⟩
  · rename_i c _
    refine ⟨?_, h.banks⟩
    intro b hb
    dsimp only
    rcases eq_or_ne b c.bank with rfl | hne
    · rw [Function.update_self]
      cases c <;> exact hcleared _ hb
    · rw [Function.update_of_ne hne]
      exact hcleared b hb

theorem Tidy.step {e : Event} {m' : MemController} (hs : step k m e = some m') (h : Tidy k m) : Tidy k m' := by
  cases e <;> obtain rfl := Option.some.inj hs
  case busRead mreq now => exact (h.enqueue mreq).refilled.scheduleNextAction
  case pushDown mreq now => exact (h.enqueue mreq).refilled.scheduleNextAction
  case manageRam now => exact h.refilled.scheduleNextAction
  case behind i st =>
    refine ⟨?_, h.banks⟩
    intro b hb
    dsimp only
    rw [Function.update_of_ne (by omega)]
    exact h.flags b hb

theorem tidy_start {mem : ℕ → BankStatus} (hmem : ∀ b < k.numBanks, (mem b).bpend = false ∧ (mem b).cpend = false) :
    Tidy k (start k mem) := by
  refine ⟨?_, by simp [start]⟩
  intro b hb
  simpa only [start, if_pos hb] using hmem b hb

/-- The state that an event calls `scheduleNextAction` in, if it does. -/
def scheduled (k : RamConfig) (m : MemController) : Event → Option MemController
  | .busRead mreq now | .pushDown mreq now => some ((m.enqueue k now mreq).refilled k now)
  | .manageRam now => some (m.refilled k now)
  | .behind _ _ => none

theorem Tidy.scheduled {e : Event} {t : MemController} (h : Tidy k m) (ht : scheduled k m e = some t) : Tidy k t := by
  cases e <;> simp only [MemController.scheduled, Option.some.injEq, reduceCtorEq] at ht <;> subst ht
  case busRead mreq now => exact (h.enqueue mreq).refilled
  case pushDown mreq now => exact (h.enqueue mreq).refilled
  case manageRam now => exact h.refilled

/-- **Every run.** From the constructor, in storage whose flags happen to be clear: every call of
`scheduleNextAction` keeps the protocol exactly when every one of them finds a calm state. -/
theorem run_safe_iff (k : RamConfig) (mem : ℕ → BankStatus)
    (hmem : ∀ b < k.numBanks, (mem b).bpend = false ∧ (mem b).cpend = false) (es : List Event) :
    Along (step k) (fun m e => ∀ t, scheduled k m e = some t → Safe k t) (start k mem) es ↔
      Along (step k) (fun m e => ∀ t, scheduled k m e = some t → Calm k t) (start k mem) es := by
  refine along_congr (fun _ _ _ hs hI => Tidy.step hs hI) ?_ (tidy_start hmem) es
  intro m e hI
  exact forall_congr' fun t => forall_congr' fun ht => safe_iff (hI.scheduled ht)

/-- A first read of another row than the one that is open since the start. -/
theorem run_safe_iff_conflict :
    Along (step smallRam) (fun m e => ∀ t, scheduled smallRam m e = some t → Safe smallRam t)
      (start smallRam lateBehind) [.busRead (readAt 0x10) 1] := by
  refine (run_safe_iff smallRam lateBehind (fun _ _ => ⟨rfl, rfl⟩) _).2 ⟨?_, fun _ _ => trivial⟩
  intro t ht
  obtain rfl := Option.some.inj ht
  refine ⟨by decide +kernel, by decide +kernel, fun _ => .inl ?_⟩
  unfold Waiting
  decide +kernel

/-- A first read of the row that is open goes behind the array; a first read of another row of
bank 1 precharges bank 0, which nobody waits for. -/
theorem first_read_unsafe :
    (¬Along (step smallRam) (fun m e => ∀ t, scheduled smallRam m e = some t → Safe smallRam t)
      (start smallRam lateBehind) [.busRead (readAt 0) 1]) ∧
    ¬Along (step smallRam) (fun m e => ∀ t, scheduled smallRam m e = some t → Safe smallRam t)
      (start smallRam lateBehind) [.busRead (readAt 0x50) 1] := by
  constructor
  · intro h
    have hin := (h.1 _ rfl).1 3 (by decide +kernel)
    exact absurd hin (by decide)
  · intro h
    obtain ⟨-, ⟨f, hfind, -⟩, -⟩ := (h.1 _ rfl).2 (.precharge 0) (by decide +kernel)
    have hnone : (((start smallRam lateBehind).enqueue smallRam 1 (readAt 0x50)).refilled smallRam 1).curMemRequests.find?
        (fun f => f.bank == 0) = none := by
      decide +kernel
    rw [hnone] at hfind
    cases hfind

end Esesc.Mem.MemController
