import Mathlib.Data.List.Perm.Basic
import Esesc.Lib.Machine
import Esesc.Mem.Cache

/-!
# The memory controller (`simu/libmem/MemController.{h,cpp}`)

Requests enter a queue, move from it to a buffer as long as the buffer has room, and leave the
buffer when a column access to their bank and row ends. Each call of `manageRam` first ends the
operations whose time has passed, then refills the buffer, then starts at most one operation.

The array `bankState` is a function on all indices: the cells from `numBanks` on stand for the
memory behind the array, which anybody may change.

* `Ordered`, `Recorded.step`: for every bank and row, what is completed, buffered and queued, in this
  order, is what has arrived.
* `length_completeAll`, `length_transfer`: how many requests a call leaves in the buffer.
* `conserved_and_fits_iff`: no run loses, duplicates or reorders a request; the buffer stays within
  its size exactly in the runs that never bring more requests than fit.
-/

namespace Esesc.Mem

open Esesc.Suc Esesc.Lib

/-- `Time_t`. -/
abbrev Time := BitVec 64

/-- `MemController::STATE`. -/
inductive BankPhase where
  | idle | activating | precharge | active | accessing
  deriving Repr, DecidableEq

structure BankStatus where
  state : BankPhase
  activeRow : ℕ
  bpend : Bool
  cpend : Bool
  bankTime : Time
  deriving Repr, DecidableEq

/-- An entry of the buffer or the queue. `arrival` is no field of the source: it tells apart the
entries that `addMemRequest` allocates. -/
structure FCFSField where
  bank : ℕ
  row : ℕ
  column : ℕ
  timeEntered : Time
  mreq : MemRequest
  arrival : ℕ
  deriving Repr, DecidableEq

/-- How `manageRam` lets go of a completed request. -/
inductive Fate where
  | destroyed
  | pushedUp (lat : Time)
  deriving Repr, DecidableEq

/-- The section's integers. The latencies are `TimeDelta_t`. -/
structure RamConfig where
  preChargeLatency : ℕ
  rowAccessLatency : ℕ
  columnAccessLatency : ℕ
  memRequestBufferSize : ℕ
  numBanks : ℕ
  numRows : ℕ
  numColumns : ℕ
  columnSize : ℕ
  banks_pos : 0 < numBanks

namespace RamConfig

variable (k : RamConfig)

def columnOffset : ℕ := Nat.log2 k.columnSize
def rowOffset : ℕ := k.columnOffset + Nat.log2 k.numColumns
def bankOffset : ℕ := k.rowOffset + Nat.log2 k.numRows

/-- The masks are `uint32_t`, shifted as such. -/
def mask (n offset : ℕ) : BitVec 32 := BitVec.ofNat 32 (n - 1) <<< offset

/-- The `uint32_t` that a mask and an offset cut out of an address. -/
def cut (n offset : ℕ) (addr : AddrType) : ℕ :=
  (((addr &&& (mask n offset).setWidth 64) >>> offset).setWidth 32).toNat

def getBank (addr : AddrType) : ℕ := cut k.numBanks k.bankOffset addr
def getRow (addr : AddrType) : ℕ := cut k.numRows k.rowOffset addr
def getColumn (addr : AddrType) : ℕ := cut k.numColumns k.columnOffset addr

theorem cut_lt {n : ℕ} (hn : 0 < n) (offset : ℕ) (addr : AddrType) : cut n offset addr < n := by
  have hmask : ((mask n offset).setWidth 64).toNat ≤ (n - 1) * 2 ^ offset := by
    simp only [mask, BitVec.toNat_setWidth, BitVec.toNat_shiftLeft, BitVec.toNat_ofNat, Nat.shiftLeft_eq]
    calc ((n - 1) % 2 ^ 32 * 2 ^ offset) % 2 ^ 32 % 2 ^ 64
        ≤ (n - 1) % 2 ^ 32 * 2 ^ offset := (Nat.mod_le _ _).trans (Nat.mod_le _ _)
      _ ≤ (n - 1) * 2 ^ offset := Nat.mul_le_mul_right _ (Nat.mod_le _ _)
  have hand : (addr &&& (mask n offset).setWidth 64).toNat ≤ (n - 1) * 2 ^ offset := by
    rw [BitVec.toNat_and]
    exact Nat.and_le_right.trans hmask
  have hcut : cut n offset addr ≤ n - 1 := by
    simp only [cut, BitVec.toNat_setWidth, BitVec.toNat_ushiftRight, Nat.shiftRight_eq_div_pow]
    exact (Nat.mod_le _ _).trans (Nat.div_le_of_le_mul (by rwa [Nat.mul_comm]))
  omega

theorem getBank_lt (addr : AddrType) : k.getBank addr < k.numBanks := cut_lt k.banks_pos _ _

end RamConfig

/-- The controller. The last three fields record what happened: the requests that have arrived,
those that were completed and how, and the banks whose column access ended, in order. -/
structure MemController where
  bankState : ℕ → BankStatus
  curMemRequests : List FCFSField
  overflowMemoryRequests : List FCFSField
  arrived : List FCFSField
  completed : List (FCFSField × Fate)
  finished : List ℕ

namespace MemController

variable (k : RamConfig) (now : Time) (m : MemController)

/-! ## Ending operations -/

/-- The entry is for row `r` of bank `b`. -/
def At (b r : ℕ) (f : FCFSField) : Bool := f.bank == b && f.row == r

def setState (b : ℕ) (p : BankPhase) : MemController :=
  { m with bankState := Function.update m.bankState b { m.bankState b with state := p } }

/-- An operation that takes `lat` cycles has ended in bank `b`. The subtraction wraps. -/
def Elapsed (b lat : ℕ) : Prop := lat ≤ (now - (m.bankState b).bankTime).toNat

instance (b lat : ℕ) : Decidable (Elapsed now m b lat) := inferInstanceAs (Decidable (_ ≤ _))

def fateOf (f : FCFSField) : Fate :=
  if f.mreq.type = .writeback then .destroyed else .pushedUp (now - f.timeEntered)

/-- The scan of the buffer when the column access of bank `b` has ended: the first entry for the
open row is completed and erased. -/
def completeFirst (b : ℕ) : MemController :=
  let open' := At b (m.bankState b).activeRow
  match m.curMemRequests.find? open' with
  | none => m
  | some f => { m with curMemRequests := m.curMemRequests.eraseP open'
                       completed := m.completed ++ [(f, fateOf now f)] }

/-- The body of the first loop of `manageRam`. -/
def completeBank (b : ℕ) : MemController :=
  if (m.bankState b).state = .precharge ∧ Elapsed now m b k.preChargeLatency then m.setState b .idle
  else if (m.bankState b).state = .activating ∧ Elapsed now m b k.rowAccessLatency then m.setState b .active
  else if (m.bankState b).state = .accessing ∧ Elapsed now m b k.columnAccessLatency then
    completeFirst now { m.setState b .active with finished := m.finished ++ [b] } b
  else m

def completeAll : MemController := (List.range k.numBanks).foldl (completeBank k now) m

/-- The loop of `transferOverflowMemory`, with the test as it stands there. -/
def transfer (size : ℕ) : List FCFSField → List FCFSField → List FCFSField × List FCFSField
  | cur, [] => (cur, [])
  | cur, f :: rest => if cur.length ≤ size then transfer size (cur ++ [f]) rest else (cur, f :: rest)

def transferOverflowMemory : MemController :=
  let r := transfer k.memRequestBufferSize m.curMemRequests m.overflowMemoryRequests
  { m with curMemRequests := r.1, overflowMemoryRequests := r.2 }

/-! ## Starting an operation -/

/-- The locals of the first loop of `scheduleNextAction`. `used` records the indices that it uses on
`bankState`. -/
structure Scan where
  bankState : ℕ → BankStatus
  oldestReadyColsBank : ℕ
  oldestReadyRowsBank : ℕ
  oldestReadyRow : ℕ
  oldestColumnFound : Bool
  oldestRowFound : Bool
  used : List ℕ

namespace Scan

/-- The first test: the first entry whose row is open. The bank of the oldest column access is compared
with the cell that the initial value names. -/
def column (sc : Scan) (f : FCFSField) : Scan :=
  let st := sc.bankState f.bank
  if !sc.oldestColumnFound ∧ st.state = .active ∧ st.activeRow = f.row then
    let bankState := Function.update sc.bankState f.bank { st with cpend := true }
    let older := (bankState sc.oldestReadyColsBank).bankTime > (bankState f.bank).bankTime
    { sc with bankState := bankState
              oldestReadyColsBank := if older then f.bank else sc.oldestReadyColsBank
              oldestColumnFound := true, used := sc.used ++ [f.bank, sc.oldestReadyColsBank] }
  else { sc with used := sc.used ++ [f.bank] }

/-- The second test: an entry that needs another row of an open bank. -/
def conflict (sc : Scan) (f : FCFSField) : Scan :=
  let st := sc.bankState f.bank
  if st.state = .active ∧ st.activeRow ≠ f.row then
    { sc with bankState := Function.update sc.bankState f.bank { st with bpend := true }
              used := sc.used ++ [f.bank] }
  else { sc with used := sc.used ++ [f.bank] }

/-- The third test: the first entry whose bank is closed. -/
def closed (sc : Scan) (f : FCFSField) : Scan :=
  let st := sc.bankState f.bank
  if !sc.oldestRowFound ∧ st.state = .idle then
    let older := (sc.bankState sc.oldestReadyRowsBank).bankTime > st.bankTime
    { sc with oldestReadyRow := if older then f.row else sc.oldestReadyRow
              oldestReadyRowsBank := if older then f.bank else sc.oldestReadyRowsBank
              oldestRowFound := true, used := sc.used ++ [f.bank, sc.oldestReadyRowsBank] }
  else { sc with used := sc.used ++ [f.bank] }

def entry (sc : Scan) (f : FCFSField) : Scan := ((sc.column f).conflict f).closed f

end Scan

def scan : Scan :=
  m.curMemRequests.foldl Scan.entry
    { bankState := m.bankState, oldestReadyColsBank := k.numBanks + 1, oldestReadyRowsBank := k.numBanks + 1
      oldestReadyRow := 0, oldestColumnFound := false, oldestRowFound := false, used := [] }

/-- The locals of the second loop. -/
structure Sweep where
  bankState : ℕ → BankStatus
  oldestbank : ℕ
  oldestBankFound : Bool
  used : List ℕ

/-- The body of the second loop: a bank that only waits for another row, then its flags are cleared. -/
def Sweep.bank (sw : Sweep) (b : ℕ) : Sweep :=
  let st := sw.bankState b
  let bankState := Function.update sw.bankState b { st with bpend := false, cpend := false }
  if st.bpend ∧ !st.cpend then
    let older := (sw.bankState sw.oldestbank).bankTime > st.bankTime
    { bankState := bankState, oldestbank := if older then b else sw.oldestbank, oldestBankFound := true
      used := sw.used ++ [b, sw.oldestbank] }
  else { sw with bankState := bankState, used := sw.used ++ [b] }

def sweep (bankState : ℕ → BankStatus) : Sweep :=
  (List.range k.numBanks).foldl Sweep.bank
    { bankState := bankState, oldestbank := 0, oldestBankFound := false, used := [] }

/-- The operation that is started. -/
inductive Command where
  | precharge (b : ℕ)
  | access (b : ℕ)
  | activate (b row : ℕ)
  deriving Repr, DecidableEq

def Command.bank : Command → ℕ
  | precharge b | access b | activate b _ => b

/-- The bank as the started operation leaves it. -/
def Command.begin (now : Time) (st : BankStatus) : Command → BankStatus
  | precharge _ => { st with state := .precharge, bankTime := now }
  | access _ => { st with state := .accessing, bankTime := now }
  | activate _ row => { st with state := .activating, bankTime := now, activeRow := row }

/-- Which of the ready operations is started. -/
def command : Option Command :=
  let sc := m.scan k
  let sw := sweep k sc.bankState
  if sw.oldestBankFound then some (.precharge sw.oldestbank)
  else if sc.oldestColumnFound then some (.access sc.oldestReadyColsBank)
  else if sc.oldestRowFound then some (.activate sc.oldestReadyRowsBank sc.oldestReadyRow)
  else none

def scheduleNextAction : MemController :=
  let bankState := (sweep k (m.scan k).bankState).bankState
  match m.command k with
  | none => { m with bankState := bankState }
  | some c => { m with bankState := Function.update bankState c.bank (c.begin now (bankState c.bank)) }

/-- The state that `manageRam` calls `scheduleNextAction` in. -/
def refilled : MemController := (m.completeAll k now).transferOverflowMemory k

def manageRam : MemController := (m.refilled k now).scheduleNextAction k now

/-- `addMemRequest`, up to its call of `manageRam`. -/
def enqueue (mreq : MemRequest) : MemController :=
  let newEntry := { bank := k.getBank mreq.addr, row := k.getRow mreq.addr, column := k.getColumn mreq.addr
                    timeEntered := now, mreq := mreq, arrival := m.arrived.length }
  { m with overflowMemoryRequests := m.overflowMemoryRequests ++ [newEntry], arrived := m.arrived ++ [newEntry] }

def addMemRequest (mreq : MemRequest) : MemController := (m.enqueue k now mreq).manageRam k now

/-- What happens to the controller: a request arrives, a callback of `manageRam` comes due, or
somebody else writes to the memory behind the array. -/
inductive Event where
  | busRead (mreq : MemRequest) (now : Time)
  | pushDown (mreq : MemRequest) (now : Time)
  | manageRam (now : Time)
  | behind (i : ℕ) (st : BankStatus)

def step : MemController → Event → Option MemController
  | m, .busRead mreq now | m, .pushDown mreq now => some (m.addMemRequest k now mreq)
  | m, .manageRam now => some (m.manageRam k now)
  | m, .behind i st => some { m with bankState := Function.update m.bankState (k.numBanks + i) st }

/-- The constructor. `mem` is what the storage held: it sets two of the fields. -/
def start (mem : ℕ → BankStatus) : MemController where
  bankState b := if b < k.numBanks then { mem b with activeRow := 0, state := .active } else mem b
  curMemRequests := []
  overflowMemoryRequests := []
  arrived := []
  completed := []
  finished := []

/-! ## Nothing is lost, duplicated or reordered -/

variable {k now m}

def completedFields (m : MemController) : List FCFSField := m.completed.map Prod.fst

/-- For every bank and row: what is completed, buffered and queued, in this order, is what has
arrived. -/
def Ordered (m : MemController) : Prop :=
  ∀ b r, m.completedFields.filter (At b r) ++ (m.curMemRequests.filter (At b r) ++
    m.overflowMemoryRequests.filter (At b r)) = m.arrived.filter (At b r)

/-- What the record says beside the order. -/
structure Recorded (m : MemController) : Prop where
  ordered : Ordered m
  arrivals : m.arrived.map FCFSField.arrival = List.range m.arrived.length
  perAccess : (m.completedFields.map FCFSField.bank).Sublist m.finished
  fates : ∀ c ∈ m.completed, c.2 = .destroyed ↔ c.1.mreq.type = .writeback

theorem completeFirst_cases (now : Time) (m : MemController) (b : ℕ) :
    (m.curMemRequests.any (At b (m.bankState b).activeRow) = false ∧ completeFirst now m b = m) ∨
    ∃ pre f post, m.curMemRequests = pre ++ f :: post ∧ (∀ x ∈ pre, ¬At b (m.bankState b).activeRow x) ∧
      At b (m.bankState b).activeRow f ∧
      completeFirst now m b = { m with curMemRequests := pre ++ post
                                       completed := m.completed ++ [(f, fateOf now f)] } := by
  cases hfind : m.curMemRequests.find? (At b (m.bankState b).activeRow) with
  | none =>
    left
    refine ⟨?_, by simp only [completeFirst, hfind]⟩
    rw [List.find?_eq_none] at hfind
    exact List.any_eq_false.2 hfind
  | some f =>
    right
    obtain ⟨hf, pre, post, hcur, hpre⟩ := List.find?_eq_some_iff_append.1 hfind
    have hpre : ∀ x ∈ pre, ¬At b (m.bankState b).activeRow x := by
      intro x hx
      simpa using hpre x hx
    refine ⟨pre, f, post, hcur, hpre, hf, ?_⟩
    simp only [completeFirst, hfind]
    rw [hcur, List.eraseP_append_right _ hpre, List.eraseP_cons_of_pos hf]

/-- What the first loop does to one bank: the lists stay, or the bank's column access ends. -/
theorem completeBank_cases (k : RamConfig) (now : Time) (m : MemController) (b : ℕ) :
    (¬((m.bankState b).state = .accessing ∧ Elapsed now m b k.columnAccessLatency) ∧
      ∃ p, completeBank k now m b = m.setState b p) ∨
    ((m.bankState b).state = .accessing ∧ Elapsed now m b k.columnAccessLatency ∧
      completeBank k now m b =
        completeFirst now { m.setState b .active with finished := m.finished ++ [b] } b) := by
  unfold completeBank
  split
  · rename_i h
    exact .inl ⟨by simp [h.1], .idle, rfl⟩
  split
  · rename_i h
    exact .inl ⟨by simp [h.1], .active, rfl⟩
  split
  · rename_i h
    exact .inr ⟨h.1, h.2, rfl⟩
  · rename_i h
    exact .inl ⟨h, (m.bankState b).state, by simp [setState]⟩

@[simp] theorem at_iff {b r : ℕ} {f : FCFSField} : At b r f = true ↔ f.bank = b ∧ f.row = r := by
  simp [At]

@[simp] theorem activeRow_setState (b : ℕ) (p : BankPhase) :
    ((m.setState b p).bankState b).activeRow = (m.bankState b).activeRow := by
  simp [setState]

theorem fateOf_destroyed {f : FCFSField} : fateOf now f = .destroyed ↔ f.mreq.type = .writeback := by
  unfold fateOf
  split <;> simp [*]

/-- Erasing the first entry for a bank and row and completing it keeps the order of all of them. -/
theorem Ordered.complete {b r : ℕ} {pre post : List FCFSField} {f : FCFSField} {fate : Fate} (h : Ordered m)
    (hcur : m.curMemRequests = pre ++ f :: post) (hpre : ∀ x ∈ pre, ¬At b r x) (hf : At b r f) :
    Ordered { m with curMemRequests := pre ++ post, completed := m.completed ++ [(f, fate)] } := by
  intro b' r'
  have hbr := h b' r'
  rw [← hbr, hcur]
  simp only [completedFields, List.map_append, List.filter_append, List.map_cons, List.map_nil, List.append_assoc,
    List.filter_cons, List.filter_nil]
  by_cases hf' : At b' r' f = true
  · -- the entry is for this bank and row: then nothing before it is
    obtain ⟨rfl, rfl⟩ : b = b' ∧ r = r' := by
      rw [at_iff] at hf hf'
      omega
    have hnil : pre.filter (At b r) = [] := List.filter_eq_nil_iff.2 hpre
    simp [hnil, hf']
  · simp [hf']

theorem Recorded.completeFirst {b : ℕ} (h : Recorded m) :
    Recorded (completeFirst now { m with finished := m.finished ++ [b] } b) := by
  rcases completeFirst_cases now { m with finished := m.finished ++ [b] } b with
    ⟨-, heq⟩ | ⟨pre, f, post, hcur, hpre, hf, heq⟩
  · rw [heq]
    exact ⟨h.ordered, h.arrivals, h.perAccess.trans (List.sublist_append_left _ _), h.fates⟩
  · rw [heq]
    refine ⟨h.ordered.complete hcur hpre hf, h.arrivals, ?_, ?_⟩
    · have hb : f.bank = b := (at_iff.1 hf).1
      simp only [completedFields, List.map_append, List.map_cons, List.map_nil, hb]
      exact h.perAccess.append_right [b]
    · intro c hc
      rcases List.mem_append.1 hc with hc | hc
      · exact h.fates c hc
      · obtain rfl := List.mem_singleton.1 hc
        exact fateOf_destroyed

theorem Recorded.completeBank (h : Recorded m) (b : ℕ) : Recorded (completeBank k now m b) := by
  have hset : ∀ p, Recorded (m.setState b p) := fun p => ⟨h.ordered, h.arrivals, h.perAccess, h.fates⟩
  rcases completeBank_cases k now m b with ⟨-, p, heq⟩ | ⟨-, -, heq⟩
  · rw [heq]
    exact hset p
  · rw [heq]
    exact (hset .active).completeFirst

theorem Recorded.completeAll (h : Recorded m) : Recorded (m.completeAll k now) := by
  unfold MemController.completeAll
  generalize List.range k.numBanks = bs
  induction bs generalizing m with
  | nil => exact h
  | cons b bs ih => exact ih (h.completeBank b)

theorem transfer_append (size : ℕ) (cur queue : List FCFSField) :
    (transfer size cur queue).1 ++ (transfer size cur queue).2 = cur ++ queue := by
  fun_induction transfer size cur queue with
  | case1 cur => rfl
  | case2 cur f rest hle ih => rw [ih, List.append_assoc, List.singleton_append]
  | case3 cur f rest hgt => rfl

theorem Recorded.transferOverflowMemory (h : Recorded m) : Recorded (m.transferOverflowMemory k) := by
  refine ⟨?_, h.arrivals, h.perAccess, h.fates⟩
  intro b r
  rw [← List.filter_append]
  simp only [MemController.transferOverflowMemory]
  rw [transfer_append, List.filter_append]
  exact h.ordered b r

theorem Recorded.scheduleNextAction (h : Recorded m) : Recorded (m.scheduleNextAction k now) := by
  unfold MemController.scheduleNextAction
  split <;> exact ⟨h.ordered, h.arrivals, h.perAccess, h.fates⟩

theorem Recorded.manageRam (h : Recorded m) : Recorded (m.manageRam k now) :=
  h.completeAll.transferOverflowMemory.scheduleNextAction

theorem Recorded.enqueue (h : Recorded m) (mreq : MemRequest) : Recorded (m.enqueue k now mreq) := by
  refine ⟨?_, ?_, h.perAccess, h.fates⟩
  · intro b r
    simp only [MemController.enqueue, List.filter_append]
    rw [← h.ordered b r]
    simp only [completedFields, List.append_assoc]
  · simp [MemController.enqueue, h.arrivals, List.range_succ]

theorem Recorded.step {e : Event} {m' : MemController} (hs : step k m e = some m') (h : Recorded m) :
    Recorded m' := by
  cases e <;> obtain rfl := Option.some.inj hs
  case busRead mreq now => exact (h.enqueue mreq).manageRam
  case pushDown mreq now => exact (h.enqueue mreq).manageRam
  case manageRam now => exact h.manageRam
  case behind i st => exact ⟨h.ordered, h.arrivals, h.perAccess, h.fates⟩

theorem recorded_start (mem : ℕ → BankStatus) : Recorded (start k mem) :=
  ⟨fun _ _ => rfl, rfl, List.Sublist.refl _, by simp [start]⟩

/-- The order of each bank and row gives that each entry is in exactly one place. -/
theorem Ordered.perm (h : Ordered m) :
    (m.completedFields ++ (m.curMemRequests ++ m.overflowMemoryRequests)).Perm m.arrived := by
  rw [List.perm_iff_count]
  intro f
  have hf : At f.bank f.row f = true := at_iff.2 ⟨rfl, rfl⟩
  have hcount := congrArg (List.count f) (h f.bank f.row)
  rwa [← List.filter_append, ← List.filter_append, List.count_filter hf, List.count_filter hf] at hcount

/-! ## What has arrived -/

/-- The request that an event brings. -/
def Event.mreq? : Event → Option MemRequest
  | .busRead mreq _ | .pushDown mreq _ => some mreq
  | .manageRam _ | .behind _ _ => none

@[simp] theorem arrived_completeFirst (b : ℕ) : (completeFirst now m b).arrived = m.arrived := by
  unfold completeFirst
  dsimp only
  split <;> rfl

theorem arrived_completeBank (b : ℕ) : (completeBank k now m b).arrived = m.arrived := by
  unfold completeBank
  split_ifs <;> simp [setState]

theorem arrived_completeAll : (m.completeAll k now).arrived = m.arrived := by
  unfold completeAll
  generalize List.range k.numBanks = bs
  induction bs generalizing m with
  | nil => rfl
  | cons b bs ih =>
    rw [List.foldl_cons, ih]
    exact arrived_completeBank b

@[simp] theorem arrived_scheduleNextAction : (m.scheduleNextAction k now).arrived = m.arrived := by
  unfold scheduleNextAction
  dsimp only
  split <;> rfl

theorem arrived_manageRam : (m.manageRam k now).arrived = m.arrived := by
  unfold manageRam
  rw [arrived_scheduleNextAction]
  exact arrived_completeAll

theorem arrived_step {e : Event} {m' : MemController} (h : step k m e = some m') :
    m'.arrived.map FCFSField.mreq = m.arrived.map FCFSField.mreq ++ e.mreq?.toList := by
  cases e <;> obtain rfl := Option.some.inj h <;>
    simp [addMemRequest, arrived_manageRam, enqueue, Event.mreq?]

theorem run_arrived {es : List Event} {m' : MemController} (h : run (step k) m es = some m') :
    m'.arrived.map FCFSField.mreq = m.arrived.map FCFSField.mreq ++ es.filterMap Event.mreq? := by
  induction es generalizing m with
  | nil =>
    obtain rfl : m = m' := by simpa only [run, Option.some.injEq] using h
    simp
  | cons e es ih =>
    obtain ⟨t, ht, h⟩ := run_cons.1 h
    rw [ih h, arrived_step ht]
    cases hq : e.mreq? <;> simp [hq]

/-! ## The size of the buffer -/

/-- A column access of bank `b` has ended and an entry waits for it. -/
def Ends (k : RamConfig) (now : Time) (m : MemController) (b : ℕ) : Bool :=
  (m.bankState b).state = .accessing && decide (Elapsed now m b k.columnAccessLatency) &&
    m.curMemRequests.any (At b (m.bankState b).activeRow)

/-- How many entries a call of `manageRam` completes. -/
def ending (k : RamConfig) (now : Time) (m : MemController) : ℕ := (List.range k.numBanks).countP (Ends k now m)

theorem any_at_erased {b b' r r' : ℕ} {pre post : List FCFSField} {f : FCFSField} (hf : At b r f) (hne : b' ≠ b) :
    (pre ++ post).any (At b' r') = (pre ++ f :: post).any (At b' r') := by
  have hb : f.bank = b := (at_iff.1 hf).1
  have hfalse : At b' r' f = false := by
    rw [← Bool.not_eq_true, at_iff]
    omega
  simp [hfalse]

theorem completeBank_length (k : RamConfig) (now : Time) (m : MemController) (b : ℕ) :
    (completeBank k now m b).curMemRequests.length + (if Ends k now m b then 1 else 0) = m.curMemRequests.length := by
  rcases completeBank_cases k now m b with ⟨hnot, p, heq⟩ | ⟨hacc, hel, heq⟩
  · have hends : Ends k now m b = false := by
      unfold Ends
      rw [← Bool.decide_and, decide_eq_false hnot, Bool.false_and]
    rw [heq, hends]
    rfl
  rw [heq]
  rcases completeFirst_cases now { m.setState b .active with finished := m.finished ++ [b] } b with
    ⟨hany, heq'⟩ | ⟨pre, f, post, hcur, -, hf, heq'⟩ <;> rw [heq'] <;> simp only [activeRow_setState] at *
  · have hends : Ends k now m b = false := by
      unfold Ends
      rw [show m.curMemRequests.any (At b (m.bankState b).activeRow) = false from hany, Bool.and_false]
    rw [hends]
    rfl
  · have hcur : m.curMemRequests = pre ++ f :: post := hcur
    have hends : Ends k now m b = true := by
      simp only [Ends, hacc, hel, hcur, List.any_append, List.any_cons, hf, decide_true, Bool.true_or,
        Bool.or_true, Bool.and_self]
    rw [hends, hcur]
    simp
    omega

theorem ends_congr {m' : MemController} {b : ℕ} (hst : m'.bankState b = m.bankState b)
    (hany : m'.curMemRequests.any (At b (m.bankState b).activeRow) =
      m.curMemRequests.any (At b (m.bankState b).activeRow)) : Ends k now m' b = Ends k now m b := by
  have hel : Elapsed now m' b k.columnAccessLatency ↔ Elapsed now m b k.columnAccessLatency := by
    unfold Elapsed
    rw [hst]
  unfold Ends
  rw [hst, hany, decide_eq_decide.2 hel]

/-- Ending the operation of one bank does not touch what the others wait for. -/
theorem ends_completeBank {b b' : ℕ} (hne : b' ≠ b) : Ends k now (completeBank k now m b) b' = Ends k now m b' := by
  rcases completeBank_cases k now m b with ⟨-, p, heq⟩ | ⟨-, -, heq⟩
  · rw [heq]
    exact ends_congr (Function.update_of_ne hne _ _) rfl
  rw [heq]
  rcases completeFirst_cases now { m.setState b .active with finished := m.finished ++ [b] } b with
    ⟨-, heq'⟩ | ⟨pre, f, post, hcur, -, hf, heq'⟩ <;> rw [heq']
  · exact ends_congr (Function.update_of_ne hne _ _) rfl
  · have hcur : m.curMemRequests = pre ++ f :: post := hcur
    refine ends_congr (Function.update_of_ne hne _ _) ?_
    rw [hcur]
    exact any_at_erased hf hne

theorem length_completeAll (k : RamConfig) (now : Time) (m : MemController) :
    (m.completeAll k now).curMemRequests.length + ending k now m = m.curMemRequests.length := by
  unfold completeAll ending
  have hnd := List.nodup_range (n := k.numBanks)
  generalize List.range k.numBanks = bs at hnd
  induction bs generalizing m with
  | nil => rfl
  | cons b bs ih =>
    obtain ⟨hb, hnd⟩ := List.nodup_cons.1 hnd
    have hrest : bs.countP (Ends k now m) = bs.countP (Ends k now (completeBank k now m b)) := by
      refine List.countP_congr fun b' hb' => ?_
      rw [ends_completeBank (by rintro rfl; exact hb hb')]
    rw [List.foldl_cons, List.countP_cons, hrest, ← Nat.add_assoc, ih _ hnd]
    exact completeBank_length k now m b

theorem overflow_completeAll : (m.completeAll k now).overflowMemoryRequests = m.overflowMemoryRequests := by
  unfold completeAll
  generalize List.range k.numBanks = bs
  induction bs generalizing m with
  | nil => rfl
  | cons b bs ih =>
    rw [List.foldl_cons, ih]
    rcases completeBank_cases k now m b with ⟨-, p, heq⟩ | ⟨-, -, heq⟩
    · rw [heq]
      rfl
    · rw [heq]
      unfold completeFirst
      dsimp only
      split <;> rfl

/-- The loop goes on while there is room for one entry less than it takes. -/
theorem length_transfer (size : ℕ) (cur queue : List FCFSField) :
    (transfer size cur queue).1.length = max cur.length (min (cur.length + queue.length) (size + 1)) := by
  fun_induction transfer size cur queue with
  | case1 cur => simp
  | case2 cur f rest hle ih =>
    rw [ih]
    simp only [List.length_append, List.length_cons, List.length_nil]
    omega
  | case3 cur f rest hgt =>
    simp only [List.length_cons]
    omega

theorem curMemRequests_scheduleNextAction : (m.scheduleNextAction k now).curMemRequests = m.curMemRequests := by
  unfold scheduleNextAction
  dsimp only
  split <;> rfl

theorem length_manageRam :
    (m.manageRam k now).curMemRequests.length =
      max (m.curMemRequests.length - ending k now m)
        (min (m.curMemRequests.length - ending k now m + m.overflowMemoryRequests.length)
          (k.memRequestBufferSize + 1)) := by
  have hlen := length_completeAll k now m
  rw [manageRam, curMemRequests_scheduleNextAction]
  simp only [refilled, transferOverflowMemory, length_transfer, overflow_completeAll]
  omega

/-- What the call of `manageRam` at `now` leaves waiting fits in the buffer. -/
def Fits (k : RamConfig) (m : MemController) (extra : ℕ) (now : Time) : Prop :=
  m.curMemRequests.length + m.overflowMemoryRequests.length + extra ≤ k.memRequestBufferSize + ending k now m

/-- The condition on a step: every request there is, the one that arrives included and those that
this step completes left out, fits in the buffer. -/
def EventFits (k : RamConfig) (m : MemController) : Event → Prop
  | .busRead _ now | .pushDown _ now => Fits k m 1 now
  | .manageRam now => Fits k m 0 now
  | .behind _ _ => True

theorem manageRam_within :
    (m.manageRam k now).curMemRequests.length ≤ k.memRequestBufferSize ↔ Fits k m 0 now := by
  have hend : ending k now m ≤ m.curMemRequests.length := by
    have := length_completeAll k now m
    omega
  rw [length_manageRam]
  unfold Fits
  omega

theorem fits_enqueue (mreq : MemRequest) : Fits k (m.enqueue k now mreq) 0 now ↔ Fits k m 1 now := by
  have hend : ending k now (m.enqueue k now mreq) = ending k now m := rfl
  unfold Fits
  rw [hend]
  simp only [enqueue, List.length_append, List.length_cons, List.length_nil]
  omega

/-- A step keeps the buffer within its size exactly under the condition. -/
theorem step_within_iff {e : Event} {m' : MemController} (hs : step k m e = some m')
    (hle : m.curMemRequests.length ≤ k.memRequestBufferSize) :
    m'.curMemRequests.length ≤ k.memRequestBufferSize ↔ EventFits k m e := by
  cases e <;> obtain rfl := Option.some.inj hs
  case busRead mreq now => exact manageRam_within.trans (fits_enqueue mreq)
  case pushDown mreq now => exact manageRam_within.trans (fits_enqueue mreq)
  case manageRam now => exact manageRam_within
  case behind i st => exact iff_of_true hle trivial

/-- **Conservation.** In every run from the constructor, whatever the storage held: the entries are
those that were sent; each is completed, buffered or queued, and only one of these, once; as many
accesses have ended as entries were completed, in the same order of banks; each row of each bank is
served in the order of arrival. The buffer holds at most `memRequestBufferSize` entries all along
exactly when no step brings the number of waiting requests above that. -/
theorem conserved_and_fits_iff (k : RamConfig) (mem : ℕ → BankStatus) (es : List Event) {m : MemController}
    (h : run (step k) (start k mem) es = some m) :
    m.arrived.map FCFSField.mreq = es.filterMap Event.mreq? ∧
    (m.completedFields ++ (m.curMemRequests ++ m.overflowMemoryRequests)).Perm m.arrived ∧
    m.arrived.Nodup ∧
    (∀ c ∈ m.completed, c.2 = .destroyed ↔ c.1.mreq.type = .writeback) ∧
    (m.completedFields.map FCFSField.bank).Sublist m.finished ∧
    (∀ b r, m.completedFields.filter (At b r) <+: m.arrived.filter (At b r)) ∧
    ((∀ bs t, bs <+: es → run (step k) (start k mem) bs = some t →
        t.curMemRequests.length ≤ k.memRequestBufferSize) ↔
      Along (step k) (EventFits k) (start k mem) es) := by
  have hrec : Recorded m := run_inv (fun _ _ _ hs hI => hI.step hs) h (recorded_start mem)
  refine ⟨by simpa [start] using run_arrived h, hrec.ordered.perm, ?_, hrec.fates, hrec.perAccess, ?_, ?_⟩
  · refine List.Nodup.of_map FCFSField.arrival ?_
    rw [hrec.arrivals]
    exact List.nodup_range
  · intro b r
    rw [← hrec.ordered b r]
    exact List.prefix_append _ _
  · refine forall_prefix_iff_along (D := fun _ _ => True)
      (I := fun t => t.curMemRequests.length ≤ k.memRequestBufferSize) (fun _ hI => hI) ?_ ?_ h
      (Along.of_forall (fun _ _ => trivial) _ _) (Nat.zero_le _)
    · intro s e s' hs _ hP hI
      exact (step_within_iff hs hI).2 hP
    · intro s e s' hs _ hP hI
      exact fun hle => hP ((step_within_iff hs hI).1 hle)

/-- Two banks of four rows, and a buffer of one entry. -/
def smallRam : RamConfig where
  preChargeLatency := 5
  rowAccessLatency := 5
  columnAccessLatency := 5
  memRequestBufferSize := 1
  numBanks := 2
  numRows := 4
  numColumns := 4
  columnSize := 4
  banks_pos := Nat.two_pos

/-- Storage that happens to hold times later than those of the array. -/
def lateBehind (b : ℕ) : BankStatus where
  state := .idle
  activeRow := 0
  bpend := false
  cpend := false
  bankTime := if b < 2 then 0 else 100

def readAt (addr : AddrType) : MemRequest := { addr := addr, type := .read, homeNode := 0 }

theorem conserved_and_fits_iff_served :
    ∃ m, run (step smallRam) (start smallRam lateBehind) [.busRead (readAt 0) 1, .manageRam 6] = some m ∧
      m.completed.length = 1 ∧ m.arrived.map FCFSField.mreq = [readAt 0] :=
  ⟨_, rfl, by decide +kernel,
    (conserved_and_fits_iff smallRam lateBehind [.busRead (readAt 0) 1, .manageRam 6] rfl).1⟩

theorem buffer_overfull :
    ((run (step smallRam) (start smallRam lateBehind) [.busRead (readAt 0) 1, .busRead (readAt 0) 1]).any
      fun m => smallRam.memRequestBufferSize < m.curMemRequests.length) = true := by
  decide +kernel

end MemController

end Esesc.Mem
