import Esesc.Core.OoOProcessor

/-!
# What a replay commits

A replay marks a load. When the load retires, `retire` starts to flush: neither the load nor the
instructions that retire after it are counted, until the ROB and the rROB are empty and `syncHeadTail` puts
the head of the trace queue back to its tail. But `destroy` advances the tail for each of them, so
the head does not go back to them; it goes back to the first instruction that was still on its way
to the ROB, and that one is still on its way.

* `flow`: the instructions in the fetch pipeline, in the order of their buckets.
* `Tracks`: the instructions on their way are those between the tail and the head of the trace queue.
* `Steady.iterate`: retirement before the flush and the step that begins it.
* `commits_each_iff`: every traced instruction is counted once and in order, or still in the trace
  queue, exactly as long as no marked instruction retires.
-/

namespace Esesc.Core.OoOProcessor

open Esesc.Lib Esesc.Emul

variable {k : ProcConfig} {s s' : OoOProcessor} {p : Pipeline Traced} {b : IBucket Traced}
  {content : ℕ → List Traced} {q q' : EmuDInstQueue Traced} {c : Cursor ℕ} {items : List Traced}

/-! ## The trace queue -/

/-- The instruction at place `n` is in the trace queue, not retired. -/
def InTrace (q : EmuDInstQueue Traced) (n : ℕ) : Prop :=
  ∃ i < q.size, (q.trace (q.mask (q.tail + i))).map Traced.pos = some n

instance (q : EmuDInstQueue Traced) (n : ℕ) : Decidable (InTrace q n) :=
  inferInstanceAs (Decidable (∃ i < q.size, _))

theorem inTrace_iff (h : Rep Traced.cloner q c items) {n : ℕ} : InTrace q n ↔ n ∈ c.added.drop c.retired := by
  have hsize : q.size = items.length := by rw [h.size, h.length]
  have hcell : ∀ i < items.length, (q.trace (q.mask (q.tail + i))).map Traced.pos = (c.added.drop c.retired)[i]? := by
    intro i hi
    have hc := h.cells i (some items[i]) (by rw [List.getElem?_map, List.getElem?_eq_getElem hi]; rfl)
    rw [mask_eq h.pow, hc, ← h.payload, List.getElem?_map, List.getElem?_eq_getElem hi]
    rfl
  have hlen : (c.added.drop c.retired).length = items.length := by rw [← h.payload, List.length_map]
  unfold InTrace
  rw [hsize, List.mem_iff_getElem?]
  constructor
  · rintro ⟨i, hi, hn⟩
    exact ⟨i, by rw [← hcell i hi, hn]⟩
  · rintro ⟨i, hn⟩
    have hi : i < items.length := by
      rw [← hlen]
      exact (List.getElem?_eq_some_iff.1 hn).1
    exact ⟨i, hi, by rw [hcell i hi, hn]⟩

/-- An instruction in the queue after an `add` is the one added or was there before. -/
theorem trace_add (hpow : ∃ k, q.traceSize = 2 ^ k) {d x : Traced} {i : ℕ} (hx : (q.add d).trace i = some x) :
    x = d ∨ ∃ j, q.trace j = some x := by
  have hupd : ∀ j, Function.update q.trace q.insertpoint (some d) j = some x → x = d ∨ ∃ j, q.trace j = some x := by
    intro j hj
    by_cases hji : j = q.insertpoint
    · rw [hji, Function.update_self] at hj
      exact .inl (Option.some.inj hj).symm
    · rw [Function.update_of_ne hji] at hj
      exact .inr ⟨j, hj⟩
  unfold EmuDInstQueue.add at hx
  dsimp only at hx
  split at hx
  · simp only [EmuDInstQueue.adjustTrace] at hx
    rw [copyUp_apply _ _ hpow] at hx
    split at hx
    · exact hupd _ hx
    · exact hupd _ hx
  · exact hupd _ hx

theorem executeHead_spec (h : Rep Traced.cloner q c items) {d : Traced} (hd : executeHead q = some (d, q')) :
    Rep Traced.cloner q' { c with next := c.next + 1 } items ∧ c.added[c.next]? = some d.pos ∧
      q'.trace = q.trace ∧ q.trace q.head = some d := by
  unfold executeHead at hd
  split at hd
  · cases hd
  · rename_i hne
    simp only [Bool.not_eq_true] at hne
    rw [Option.map_eq_some_iff] at hd
    obtain ⟨d', hget, hd⟩ := hd
    obtain ⟨rfl, rfl⟩ := Prod.mk.inj hd
    refine ⟨h.popHead hne, ?_, rfl, hget⟩
    rcases h.getHead with hg | he
    · rw [← hg, hget]
      rfl
    · rw [he] at hne
      cases hne

/-- The places that a run of `realfetch` reads follow the head. -/
theorem realfetch_spec (stall : ℕ → Bool) (n : ℕ) (h : Rep Traced.cloner q c items)
    (hadd : ∃ t, c.added = List.range t) (hclean : ∀ i d, q.trace i = some d → d.replay = false) :
    Rep Traced.cloner (realfetch stall n q).2 { c with next := c.next + (realfetch stall n q).1.length } items ∧
      (realfetch stall n q).1.map Traced.pos = List.range' c.next (realfetch stall n q).1.length ∧
      (∀ d ∈ (realfetch stall n q).1, d.replay = false) ∧ (realfetch stall n q).2.trace = q.trace := by
  induction n generalizing q c with
  | zero => exact ⟨h, rfl, List.forall_mem_nil _, rfl⟩
  | succ n ih =>
    unfold realfetch
    cases hd : executeHead q with
    | none => exact ⟨h, rfl, List.forall_mem_nil _, rfl⟩
    | some r =>
      obtain ⟨d, q'⟩ := r
      obtain ⟨hrep, hpos, htrace, hcell⟩ := executeHead_spec h hd
      have hd0 := hclean _ d hcell
      have hdpos : d.pos = c.next := by
        obtain ⟨t, ht⟩ := hadd
        rw [ht] at hpos
        obtain ⟨hlt, hval⟩ := List.getElem?_eq_some_iff.1 hpos
        rw [List.getElem_range] at hval
        exact hval.symm
      dsimp only
      split
      · refine ⟨hrep, by simp [hdpos], by simpa using hd0, htrace⟩
      · obtain ⟨hrep', hmap, hall, htrace'⟩ := ih hrep hadd (by rw [htrace]; exact hclean)
        refine ⟨?_, ?_, ?_, htrace'.trans htrace⟩
        · rw [List.length_cons, Nat.add_comm _ 1, ← Nat.add_assoc]
          exact hrep'
        · rw [List.map_cons, hmap, hdpos, List.length_cons, List.range'_succ]
        · intro x hx
          rcases List.mem_cons.1 hx with rfl | hx
          · exact hd0
          · exact hall x hx

/-! ## The fetch pipeline -/

/-- The instructions in the fetch pipeline, in the order of their buckets. Those of a bucket that is still
outstanding or received are the `content` of its pipeline id. -/
def flow (content : ℕ → List Traced) (p : Pipeline Traced) : List Traced :=
  p.buffer.flatMap IBucket.insts ++ (List.range' p.minItemCntr (p.maxItemCntr - p.minItemCntr)).flatMap content

theorem flow_release (hmin : p.minItemCntr < p.maxItemCntr) (hb : b.insts = content p.minItemCntr) :
    flow content (p.release b) = flow content p := by
  have hrange : List.range' p.minItemCntr (p.maxItemCntr - p.minItemCntr) =
      p.minItemCntr :: List.range' (p.minItemCntr + 1) (p.maxItemCntr - (p.minItemCntr + 1)) := by
    rw [show p.maxItemCntr - p.minItemCntr = p.maxItemCntr - (p.minItemCntr + 1) + 1 by omega, List.range'_succ]
  unfold flow
  rw [hrange, List.flatMap_cons, ← hb]
  unfold Pipeline.release
  dsimp only
  split
  · rename_i hempty
    rw [List.isEmpty_iff.1 hempty]
    rfl
  · rw [List.flatMap_append, List.flatMap_singleton, List.append_assoc]

theorem release_maxItemCntr (p : Pipeline Traced) (b : IBucket Traced) :
    (p.release b).maxItemCntr = p.maxItemCntr := by
  unfold Pipeline.release
  dsimp only
  split <;> rfl

/-- **The loop of `clearItems`** moves instructions along the pipeline and leaves their order alone. -/
theorem flow_clearLoop (l : List (IBucket Traced)) (hl : p.received = l)
    (hc : ∀ b ∈ l, b.pipeId < p.maxItemCntr ∧ b.insts = content b.pipeId) :
    flow content (p.clearLoop l) = flow content p ∧ ∀ b ∈ (p.clearLoop l).received, b ∈ l := by
  induction l generalizing p with
  | nil => exact ⟨rfl, fun b hb => hl ▸ hb⟩
  | cons b rest ih =>
    unfold Pipeline.clearLoop
    split
    · rename_i hb
      obtain ⟨hlt, hin⟩ := hc b List.mem_cons_self
      have hrest : ∀ x ∈ rest, x.pipeId < ({ p with received := rest }.release b).maxItemCntr ∧
          x.insts = content x.pipeId := by
        rw [release_maxItemCntr]
        exact fun x hx => hc x (List.mem_cons_of_mem b hx)
      obtain ⟨hflow, hmem⟩ := ih (Pipeline.release_received _ b) hrest
      refine ⟨?_, fun x hx => List.mem_cons_of_mem b (hmem x hx)⟩
      rw [hflow]
      exact flow_release (p := { p with received := rest }) (hb ▸ hlt) (by rw [hin, hb])
    · exact ⟨rfl, fun x hx => hl ▸ hx⟩

theorem flow_readyItem (now : ℕ) (hb : b.pipeId < p.maxItemCntr ∧ b.insts = content b.pipeId)
    (hc : ∀ x ∈ p.received, x.pipeId < p.maxItemCntr ∧ x.insts = content x.pipeId) :
    flow content (p.readyItem now b) = flow content p ∧
      ∀ x ∈ (p.readyItem now b).received, x.insts = content x.pipeId := by
  unfold Pipeline.readyItem
  dsimp only
  split
  · refine ⟨rfl, ?_⟩
    intro x hx
    rcases Pipeline.mem_pushReceived.1 hx with rfl | hx
    · exact hb.2
    · exact (hc x hx).2
  · rename_i heq
    have heq : b.pipeId = p.minItemCntr := not_not.1 heq
    have hrec : ∀ x ∈ ({ p with nIRequests := p.nIRequests + 1 }.release { b with clock := now }).received,
        x.pipeId < ({ p with nIRequests := p.nIRequests + 1 }.release { b with clock := now }).maxItemCntr ∧
          x.insts = content x.pipeId := by
      rw [Pipeline.release_received, release_maxItemCntr]
      exact hc
    obtain ⟨hflow, hmem⟩ := flow_clearLoop _ rfl hrec
    refine ⟨?_, fun x hx => (hrec x (hmem x hx)).2⟩
    rw [Pipeline.clearItems, hflow]
    exact flow_release (p := { p with nIRequests := p.nIRequests + 1 }) (b := { b with clock := now })
      (heq ▸ hb.1) (by rw [hb.2, heq])

/-- The buckets on the way are those of a fetch pipeline in use, and `content` has the instructions of
those that are not in order yet. -/
structure Piped (k : ProcConfig) (s : OoOProcessor) (fe : Fetch Traced) (content : ℕ → List Traced) : Prop where
  ok : fe.Ok k.pipe
  pipe : fe.pipe = s.pipeLine
  outstanding : fe.outstanding = s.outstanding
  delivered : fe.delivered.Perm s.instQueue
  filled : ∀ b ∈ s.outstanding ++ s.pipeLine.received, b.insts = content b.pipeId

variable {fe : Fetch Traced}

theorem Piped.congr (h : Piped k s fe content) (hp : s'.pipeLine = s.pipeLine) (ho : s'.outstanding = s.outstanding)
    (hq : s'.instQueue = s.instQueue) : Piped k s' fe content := by
  refine ⟨h.ok, ?_, ?_, ?_, ?_⟩
  · rw [hp, h.pipe]
  · rw [ho, h.outstanding]
  · rw [hq]
    exact h.delivered
  · rw [hp, ho]
    exact h.filled

theorem Piped.pipeId_lt (h : Piped k s fe content) (hb : b ∈ s.outstanding ++ s.pipeLine.received) :
    b.pipeId < s.pipeLine.maxItemCntr := by
  rw [← h.pipe]
  refine (h.ok.mem_ids.1 ?_).2
  rw [h.outstanding, h.pipe]
  exact List.mem_map_of_mem hb

theorem Piped.ready (h : Piped k s fe content) (now : ℕ) (hb : b ∈ s.outstanding) :
    (∃ fe', Piped k { s with pipeLine := s.pipeLine.readyItem now b, outstanding := s.outstanding.erase b } fe'
      content) ∧ flow content (s.pipeLine.readyItem now b) = flow content s.pipeLine := by
  have hid : ∀ x ∈ s.outstanding ++ s.pipeLine.received,
      x.pipeId < s.pipeLine.maxItemCntr ∧ x.insts = content x.pipeId :=
    fun x hx => ⟨h.pipeId_lt hx, h.filled x hx⟩
  obtain ⟨hok, hpipe, hout, hdel, hcont⟩ := h
  obtain ⟨hflow, hrec⟩ := flow_readyItem now (hid b (List.mem_append_left _ hb)) fun x hx =>
    hid x (List.mem_append_right _ hx)
  have hclock : Fetch.Ok k.pipe { fe with globalClock := now } := hok.step (a := .clock now) rfl
  refine ⟨⟨_, hclock.readyItem (b := b) (by rw [hout]; exact hb), ?_, ?_, hdel, ?_⟩, hflow⟩
  · rw [hpipe]
  · rw [hout]
  · intro x hx
    rcases List.mem_append.1 hx with hx | hx
    · exact hcont x (List.mem_append_left _ (List.mem_of_mem_erase hx))
    · exact hrec x hx

/-- A bucket that was just handed out takes the last place. -/
theorem Piped.fetch (h : Piped k s fe content) (ds : List Traced) (q' : EmuDInstQueue Traced)
    (hpool : ∀ b ∈ s.pipeLine.bucketPool, b.insts = []) (hn : s.pipeLine.newItem = some (b, p)) :
    ∃ fe' content', Piped k { s with
        pipeLine := p, ruffer := q', outstanding := { b with insts := b.insts ++ ds } :: s.outstanding } fe' content' ∧
      flow content' p = flow content s.pipeLine ++ ds := by
  have hlt : ∀ x ∈ s.outstanding ++ s.pipeLine.received, x.pipeId < s.pipeLine.maxItemCntr := fun _ => h.pipeId_lt
  obtain ⟨hok, hpipe, hout, hdel, hcont⟩ := h
  have hmin := hok.min_le
  rw [hpipe] at hmin
  have hnew := hok.newItem (b := b) (p := p) (by rw [hpipe]; exact hn)
  have hfill := hnew.fill (b := b) List.mem_cons_self (b.insts ++ ds)
  rw [List.erase_cons_head] at hfill
  unfold Pipeline.newItem at hn
  split at hn
  · cases hn
  split at hn
  · cases hn
  rename_i b₀ pool hp
  obtain ⟨rfl, rfl⟩ : { b₀ with pipeId := s.pipeLine.maxItemCntr } = b ∧ _ = p := by
    simpa only [Option.some.injEq, Prod.mk.injEq] using hn
  have hb₀ : b₀.insts = [] := hpool b₀ (by rw [hp]; exact List.mem_cons_self)
  refine ⟨_, Function.update content s.pipeLine.maxItemCntr ds, ⟨hfill, rfl, ?_, hdel, ?_⟩, ?_⟩
  · rw [hout]
  · intro x hx
    rcases List.mem_cons.1 hx with rfl | hx
    · simp only [hb₀, List.nil_append, Function.update_self]
    · rw [Function.update_of_ne (hlt x hx).ne]
      exact hcont x hx
  · have hsame : (List.range' s.pipeLine.minItemCntr (s.pipeLine.maxItemCntr - s.pipeLine.minItemCntr)).flatMap
        (Function.update content s.pipeLine.maxItemCntr ds) =
        (List.range' s.pipeLine.minItemCntr (s.pipeLine.maxItemCntr - s.pipeLine.minItemCntr)).flatMap content := by
      refine List.flatMap_congr fun i hi => Function.update_of_ne ?_ _ _
      have := List.mem_range'_1.1 hi
      omega
    unfold flow
    dsimp only
    rw [Nat.succ_sub hmin, List.range'_1_concat, Nat.add_sub_cancel' hmin, List.flatMap_append, hsame,
      List.flatMap_singleton, Function.update_self, List.append_assoc]

theorem Piped.decode {now : ℕ} (h : Piped k s fe content) (hn : s.pipeLine.nextItem k.pipe now = some (b, p)) (n : ℤ) :
    (∃ fe', Piped k { s with pipeLine := p, spaceInInstQueue := n, instQueue := s.instQueue ++ [b] } fe' content) ∧
      flow content s.pipeLine = b.insts ++ flow content p := by
  obtain ⟨hok, hpipe, hout, hdel, hcont⟩ := h
  have hclock : Fetch.Ok k.pipe { fe with globalClock := now } := hok.step (a := .clock now) rfl
  have hnext := hclock.nextItem (b := b) (p := p) (by rw [hpipe]; exact hn)
  unfold Pipeline.nextItem at hn
  split at hn
  · cases hn
  split at hn
  · cases hn
  rename_i b₀ rest hbuf _
  obtain ⟨rfl, rfl⟩ : b₀ = b ∧ _ = p := by simpa only [Option.some.injEq, Prod.mk.injEq] using hn
  refine ⟨⟨_, hnext, rfl, hout, ?_, hcont⟩, ?_⟩
  · exact (hdel.cons b₀).trans (List.perm_append_singleton b₀ s.instQueue).symm
  · unfold flow
    rw [hbuf, List.flatMap_cons, List.append_assoc]

theorem Piped.takeTop {rest : List (IBucket Traced)} (h : Piped k s fe content) (d : Traced) (ds : List Traced)
    (hq : s.instQueue = b :: rest) :
    (∃ fe', Piped k (s.takeTop b rest d ds) fe' content) ∧
      flow content (s.takeTop b rest d ds).pipeLine = flow content s.pipeLine := by
  obtain ⟨hok, hpipe, hout, hdel, hcont⟩ := h
  have hb : b ∈ fe.delivered := hdel.mem_iff.2 (by rw [hq]; exact List.mem_cons_self)
  have hrest : (fe.delivered.erase b).Perm rest := by
    have := hdel.erase b
    rwa [hq, List.erase_cons_head] at this
  have hissue := hok.issue hb ds
  unfold OoOProcessor.takeTop
  dsimp only
  split
  · rename_i hds
    subst hds
    have hdone := hissue.doneItem (b := { b with insts := [] }) List.mem_cons_self
    rw [List.erase_cons_head] at hdone
    refine ⟨⟨_, hdone, ?_, hout, hrest, hcont⟩, rfl⟩
    rw [hpipe]
  · exact ⟨⟨_, hissue, hpipe, hout, hrest.cons _, hcont⟩, rfl⟩

/-! ## From the trace to the ROB -/

/-- The instructions on their way to the ROB, in order. -/
def waiting (content : ℕ → List Traced) (s : OoOProcessor) : List Traced :=
  s.instQueue.flatMap IBucket.insts ++ flow content s.pipeLine

/-- The instructions on their way to retirement, in order. -/
def onTheWay (content : ℕ → List Traced) (s : OoOProcessor) : List Traced :=
  s.rROB ++ (s.ROB ++ waiting content s)

/-- The instructions on the way are those between the tail and the head of the trace queue. A mark is put on
in the ROB, and is in no cell of the queue. -/
structure Tracking (k : ProcConfig) (s : OoOProcessor) (fe : Fetch Traced) (content : ℕ → List Traced)
    (c : Cursor ℕ) (items : List Traced) : Prop extends Piped k s fe content where
  rep : Rep Traced.cloner s.ruffer c items
  added : c.added = List.range s.traced
  drop : c.drop = 0
  order : (onTheWay content s).map Traced.pos = List.range' c.retired (c.next - c.retired)
  clean : ∀ d ∈ waiting content s, d.replay = false
  cells : ∀ i d, s.ruffer.trace i = some d → d.replay = false

/-- The same, when `r` instructions have left the trace queue. -/
def Tracks (k : ProcConfig) (r : ℕ) (s : OoOProcessor) : Prop :=
  ∃ fe content c items, Tracking k s fe content c items ∧ c.retired = r

variable {r : ℕ}

/-- What leaves the trace queue alone and the order of the instructions on the way. -/
theorem Tracking.move {fe' : Fetch Traced} (h : Tracking k s fe content c items) (hp : Piped k s' fe' content)
    (hr : s'.ruffer = s.ruffer) (ht : s'.traced = s.traced)
    (hway : (onTheWay content s').map Traced.pos = (onTheWay content s).map Traced.pos)
    (hsub : ∀ d ∈ waiting content s', d ∈ waiting content s) : Tracking k s' fe' content c items where
  toPiped := hp
  rep := hr ▸ h.rep
  added := ht ▸ h.added
  drop := h.drop
  order := hway.trans h.order
  clean d hd := h.clean d (hsub d hd)
  cells := hr ▸ h.cells

theorem tracks_init (k : ProcConfig) : Tracks k 0 (init k) :=
  ⟨.init k.pipe, fun _ => [], .init, [], ⟨⟨Fetch.ok_init, rfl, rfl, .refl _, nofun⟩, rep_init, rfl, rfl, rfl, nofun,
    nofun⟩, rfl⟩

theorem Tracks.add (h : Tracks k r s) :
    Tracks k r { s with ruffer := s.ruffer.add ⟨s.traced, false⟩, traced := s.traced + 1 } := by
  obtain ⟨fe, content, c, items, h, rfl⟩ := h
  refine ⟨fe, content, _, _, ⟨h.toPiped.congr rfl rfl rfl, h.rep.add _, ?_, h.drop, h.order, h.clean, ?_⟩, rfl⟩
  · rw [h.added]
    exact List.range_succ.symm
  · intro i d hd
    rcases trace_add h.rep.pow hd with rfl | ⟨j, hj⟩
    · rfl
    · exact h.cells j d hj

theorem Tracks.fetch (h : Tracks k r s) (hroom : Room k 0 s) (stall : ℕ → Bool) : Tracks k r (s.fetch k stall) := by
  obtain ⟨fe, content, c, items, h, rfl⟩ := h
  unfold OoOProcessor.fetch
  split
  · exact ⟨fe, content, c, items, h, rfl⟩
  rename_i b p hn
  obtain ⟨hrep, hmap, hclean, htrace⟩ := realfetch_spec stall k.fetchWidth h.rep ⟨_, h.added⟩ h.cells
  have hle := h.rep.retired_le
  dsimp only
  generalize realfetch stall k.fetchWidth s.ruffer = rf at *
  obtain ⟨fe', content', hpiped, hflow⟩ := h.toPiped.fetch rf.1 rf.2 hroom.buckets.pool hn
  have hwait : s.instQueue.flatMap IBucket.insts ++ flow content' p = waiting content s ++ rf.1 := by
    rw [hflow, waiting, List.append_assoc]
  refine ⟨fe', content', _, items, ⟨hpiped, hrep, h.added, h.drop, ?_, ?_, ?_⟩, rfl⟩
  · have horder := h.order
    show (s.rROB ++ (s.ROB ++ (s.instQueue.flatMap IBucket.insts ++ flow content' p))).map Traced.pos = _
    rw [hwait]
    simp only [onTheWay, List.map_append, ← List.append_assoc] at horder ⊢
    rw [horder, hmap, show c.next + rf.1.length - c.retired = c.next - c.retired + rf.1.length by omega,
      ← List.range'_append_1, Nat.add_sub_cancel' hle]
  · intro d hd
    have hd : d ∈ waiting content s ++ rf.1 := hwait ▸ hd
    rcases List.mem_append.1 hd with hd | hd
    · exact h.clean d hd
    · exact hclean d hd
  · show ∀ i d, rf.2.trace i = some d → _
    rw [htrace]
    exact h.cells

theorem Tracks.ready (h : Tracks k r s) (now : ℕ) (hb : b ∈ s.outstanding) :
    Tracks k r { s with pipeLine := s.pipeLine.readyItem now b, outstanding := s.outstanding.erase b } := by
  obtain ⟨fe, content, c, items, h, rfl⟩ := h
  obtain ⟨⟨fe', hpiped⟩, hflow⟩ := h.toPiped.ready now hb
  refine ⟨fe', content, c, items, h.move hpiped rfl rfl ?_ ?_, rfl⟩
  · simp only [onTheWay, waiting, hflow]
  · simp only [waiting, hflow]
    exact fun d hd => hd

theorem Tracks.decode (h : Tracks k r s) (now : ℕ) : Tracks k r (s.decode k now) := by
  unfold OoOProcessor.decode
  split
  · split
    · exact h
    · rename_i b p hn
      obtain ⟨fe, content, c, items, h, rfl⟩ := h
      obtain ⟨⟨fe', hpiped⟩, hflow⟩ := h.toPiped.decode hn (s.spaceInInstQueue - b.insts.length)
      have hwait : (s.instQueue ++ [b]).flatMap IBucket.insts ++ flow content p = waiting content s := by
        rw [waiting, hflow, List.flatMap_append, List.flatMap_singleton, List.append_assoc]
      refine ⟨fe', content, c, items, h.move hpiped rfl rfl ?_ ?_, rfl⟩
      · unfold onTheWay
        rw [← hwait]
        rfl
      · rw [← hwait]
        exact fun d hd => hd
  · exact h

theorem Tracks.takeTop {rest : List (IBucket Traced)} {d : Traced} {ds : List Traced} (h : Tracks k r s)
    (hq : s.instQueue = b :: rest) (hb : b.insts = d :: ds) :
    Tracks k r (s.takeTop b rest d ds) ∧ d.replay = false := by
  obtain ⟨fe, content, c, items, h, rfl⟩ := h
  obtain ⟨⟨fe', hpiped⟩, hflow⟩ := h.toPiped.takeTop d ds hq
  have hinsts : (s.takeTop b rest d ds).instQueue.flatMap IBucket.insts = ds ++ rest.flatMap IBucket.insts := by
    unfold OoOProcessor.takeTop
    dsimp only
    split
    · rename_i hds
      rw [hds, List.nil_append]
    · rw [List.flatMap_cons]
  have hwait : waiting content s = d :: waiting content (s.takeTop b rest d ds) := by
    rw [waiting, waiting, hflow, hinsts, hq, List.flatMap_cons, hb]
    simp only [List.cons_append, List.append_assoc]
  have hfields : (s.takeTop b rest d ds).ruffer = s.ruffer ∧ (s.takeTop b rest d ds).traced = s.traced ∧
      (s.takeTop b rest d ds).rROB = s.rROB ∧ (s.takeTop b rest d ds).ROB = s.ROB ++ [d] := by
    unfold OoOProcessor.takeTop
    dsimp only
    split
    · exact ⟨rfl, rfl, rfl, rfl⟩
    · exact ⟨rfl, rfl, rfl, rfl⟩
  refine ⟨⟨fe', content, c, items, h.move hpiped hfields.1 hfields.2.1 ?_ ?_, rfl⟩, ?_⟩
  · rw [onTheWay, onTheWay, hfields.2.2.1, hfields.2.2.2, hwait, List.append_assoc, List.singleton_append]
  · rw [hwait]
    exact fun x hx => List.mem_cons_of_mem d hx
  · refine h.clean d ?_
    rw [hwait]
    exact List.mem_cons_self

/-- What happens before `retire`: instructions without a mark enter the ROB. -/
structure Before (s t : OoOProcessor) : Prop where
  rROB : t.rROB = s.rROB
  ROB : ∃ new, t.ROB = s.ROB ++ new ∧ ∀ d ∈ new, d.replay = false
  committed : t.committed = s.committed
  flushing : t.flushing = s.flushing
  recovering : t.replayRecovering = s.replayRecovering

/-- Nothing enters the ROB, and nothing leaves it. -/
theorem before_of_ROB {t : OoOProcessor} (hR : t.ROB = s.ROB) (hr : t.rROB = s.rROB)
    (hc : t.committed = s.committed) (hf : t.flushing = s.flushing) (hp : t.replayRecovering = s.replayRecovering) :
    Before s t :=
  ⟨hr, ⟨[], by rw [hR, List.append_nil], List.forall_mem_nil _⟩, hc, hf, hp⟩

theorem Before.refl (s : OoOProcessor) : Before s s := before_of_ROB rfl rfl rfl rfl rfl

theorem Before.trans {t u : OoOProcessor} (h : Before s t) (h' : Before t u) : Before s u := by
  obtain ⟨new, hnew, hclean⟩ := h.ROB
  obtain ⟨new', hnew', hclean'⟩ := h'.ROB
  refine ⟨h'.rROB.trans h.rROB, ⟨new ++ new', ?_, ?_⟩, h'.committed.trans h.committed, h'.flushing.trans h.flushing,
    h'.recovering.trans h.recovering⟩
  · rw [hnew', hnew, List.append_assoc]
  · intro d hd
    rcases List.mem_append.1 hd with hd | hd
    · exact hclean d hd
    · exact hclean' d hd

theorem before_decode (s : OoOProcessor) (now : ℕ) : Before s (s.decode k now) := by
  unfold OoOProcessor.decode
  split
  · split
    · exact .refl s
    · exact before_of_ROB rfl rfl rfl rfl rfl
  · exact .refl s

theorem before_takeTop {rest : List (IBucket Traced)} {d : Traced} {ds : List Traced} (hd : d.replay = false) :
    Before s (s.takeTop b rest d ds) := by
  have hnew : ∀ x ∈ [d], x.replay = false := by simpa using hd
  unfold OoOProcessor.takeTop
  dsimp only
  split
  · exact ⟨rfl, ⟨[d], rfl, hnew⟩, rfl, rfl, rfl⟩
  · exact ⟨rfl, ⟨[d], rfl, hnew⟩, rfl, rfl, rfl⟩

theorem Tracks.issue (h : Tracks k r s) (answer : ℕ → StallCause) (n : ℕ) :
    Tracks k r (OoOProcessor.issue k answer n s).2 ∧ Before s (OoOProcessor.issue k answer n s).2 := by
  induction n generalizing s with
  | zero => exact ⟨h, .refl s⟩
  | succ n ih =>
    rcases issue_succ k answer n s with heq | ⟨b, rest, d, ds, hq, hb, -, heq⟩
    · rw [heq]
      exact ⟨h, .refl s⟩
    · rw [heq]
      obtain ⟨htop, hd⟩ := h.takeTop hq hb
      obtain ⟨hrest, hbefore⟩ := ih htop
      exact ⟨hrest, (before_takeTop hd).trans hbefore⟩

theorem Tracks.giveBack (h : Tracks k r s) (n : ℤ) : Tracks k r { s with spaceInInstQueue := n } := by
  obtain ⟨fe, content, c, items, h, rfl⟩ := h
  exact ⟨fe, content, c, items, h.move (h.toPiped.congr rfl rfl rfl) rfl rfl rfl fun d hd => hd, rfl⟩

theorem Tracks.replay (h : Tracks k r s) (i : ℕ) : Tracks k r (s.replay i) := by
  obtain ⟨fe, content, c, items, h, rfl⟩ := h
  have hpos : (s.ROB.modify i fun d => { d with replay := true }).map Traced.pos = s.ROB.map Traced.pos := by
    refine List.ext_getElem? fun j => ?_
    rw [List.getElem?_map, List.getElem?_map, List.getElem?_modify]
    cases s.ROB[j]? with
    | none => rfl
    | some d =>
      simp only [Option.map_eq_map, Option.map_some]
      split <;> rfl
  refine ⟨fe, content, c, items, h.move (h.toPiped.congr rfl rfl rfl) rfl rfl ?_ fun d hd => hd, rfl⟩
  show (s.rROB ++ (s.ROB.modify i _ ++ waiting content s)).map Traced.pos = _
  rw [onTheWay, List.map_append, List.map_append, hpos, List.map_append, List.map_append]

/-! ## Retirement -/

theorem retireTop_nil (hr : s.rROB = []) : s.retireTop = s := by
  unfold retireTop
  rw [hr]

theorem retireTop_cons {d : Traced} {rest : List Traced} (hr : s.rROB = d :: rest) :
    s.retireTop = { s with
      flushing := s.flushing || d.replay
      committed := if s.flushing || d.replay then s.committed else s.committed ++ [d.pos]
      ruffer := s.ruffer.advanceTail.2
      rROB := rest } := by
  unfold retireTop
  rw [hr]

theorem Tracks.preretire (h : Tracks k r s) (n : ℕ) : Tracks k r (s.preretire n) := by
  obtain ⟨fe, content, c, items, h, rfl⟩ := h
  refine ⟨fe, content, c, items, h.move (h.toPiped.congr rfl rfl rfl) rfl rfl ?_ fun d hd => hd, rfl⟩
  have hway : onTheWay content (s.preretire n) = onTheWay content s := by
    show (s.rROB ++ s.ROB.take n) ++ (s.ROB.drop n ++ waiting content s) = s.rROB ++ (s.ROB ++ waiting content s)
    rw [List.append_assoc, ← List.append_assoc (s.ROB.take n), List.take_append_drop]
  rw [hway]

/-- **The tail follows the rROB.** What retires is the instruction at the tail of the trace queue, and it leaves
the queue. -/
theorem Tracks.retireTop {d : Traced} {rest : List Traced} (h : Tracks k r s) (hr : s.rROB = d :: rest) :
    d.pos = r ∧ Tracks k (r + 1) s.retireTop := by
  obtain ⟨fe, content, c, items, h, rfl⟩ := h
  have horder := h.order
  rw [onTheWay, hr, List.cons_append, List.map_cons] at horder
  have hnext : c.retired < c.next := by
    by_contra hle
    rw [Nat.sub_eq_zero_of_le (Nat.le_of_not_lt hle)] at horder
    cases horder
  rw [show c.next - c.retired = c.next - (c.retired + 1) + 1 by omega, List.range'_succ] at horder
  obtain ⟨hpos, horder⟩ := List.cons.inj horder
  refine ⟨hpos, ?_⟩
  have hallowed : s.ruffer.Allowed .advanceTail := by
    intro _ _ he
    have hlen := h.rep.length
    have hshort := h.rep.short
    have hle := h.rep.next_le
    have h0 : (s.ruffer.tail + (c.next - c.retired)) % s.ruffer.traceSize =
        (s.ruffer.tail + 0) % s.ruffer.traceSize := by
      rw [← h.rep.head, ← he, Nat.add_zero, Nat.mod_eq_of_lt h.rep.tail_lt]
    have := (isRing_mod s.ruffer.traceSize).inj (by omega) (by omega) h0
    omega
  obtain ⟨-, items', hrep⟩ := h.rep.advanceTail hallowed
  have hstep : (c.step .advanceTail).2 = { c with retired := c.retired + 1 } := by
    have hle := h.rep.next_le
    unfold Cursor.step
    rw [h.drop]
    dsimp only
    rw [if_neg (by omega), if_neg (by omega)]
  have htrace : s.ruffer.advanceTail.2.trace = s.ruffer.trace := by
    unfold EmuDInstQueue.advanceTail
    split
    · rfl
    · split <;> rfl
  rw [hstep] at hrep
  rw [retireTop_cons hr]
  refine ⟨fe, content, _, items', ⟨h.toPiped.congr rfl rfl rfl, hrep, h.added, h.drop, horder, h.clean, ?_⟩, rfl⟩
  show ∀ i d, s.ruffer.advanceTail.2.trace i = some d → _
  rw [htrace]
  exact h.cells

theorem Tracks.inTrace_iff (h : Tracks k r s) {n : ℕ} : InTrace s.ruffer n ↔ r ≤ n ∧ n < s.traced := by
  obtain ⟨fe, content, c, items, h, rfl⟩ := h
  rw [OoOProcessor.inTrace_iff h.rep, h.added, List.range_eq_range', List.drop_range', List.mem_range'_1]
  omega

theorem Tracks.le (h : Tracks k r s) : r ≤ s.traced := by
  obtain ⟨fe, content, c, items, h, rfl⟩ := h
  have hle := h.rep.next_le
  rw [h.added, List.length_range] at hle
  exact h.rep.retired_le.trans hle

/-- As long as no marked instruction has retired. A recovery waits for a marked instruction to retire. -/
structure Steady (k : ProcConfig) (s : OoOProcessor) : Prop where
  tracks : Tracks k s.committed.length s
  committed : s.committed = List.range s.committed.length
  flushing : s.flushing = false
  recovering : s.replayRecovering = true → ∃ d ∈ s.rROB ++ s.ROB, d.replay = true

/-- From then on. -/
structure Lost (k : ProcConfig) (r : ℕ) (s : OoOProcessor) : Prop where
  tracks : Tracks k r s
  fewer : s.committed.length < r
  committed : s.committed = List.range s.committed.length
  flushing : s.flushing = true

theorem Steady.retireTop {d : Traced} {rest : List Traced} (h : Steady k s) (hr : s.rROB = d :: rest)
    (hd : d.replay = false) : Steady k s.retireTop := by
  obtain ⟨hpos, htracks⟩ := h.tracks.retireTop hr
  have heq : s.retireTop =
      { s with committed := s.committed ++ [d.pos], ruffer := s.ruffer.advanceTail.2, rROB := rest } := by
    rw [retireTop_cons hr]
    simp [h.flushing, hd]
  rw [heq] at htracks ⊢
  have hlen : (s.committed ++ [d.pos]).length = s.committed.length + 1 := by simp
  refine ⟨?_, ?_, h.flushing, ?_⟩
  · show Tracks k (s.committed ++ [d.pos]).length _
    rw [hlen]
    exact htracks
  · show s.committed ++ [d.pos] = List.range (s.committed ++ [d.pos]).length
    rw [hlen, List.range_succ, ← h.committed, hpos]
  · intro hrec
    obtain ⟨x, hx, hmark⟩ := h.recovering hrec
    rw [hr, List.cons_append] at hx
    rcases List.mem_cons.1 hx with rfl | hx
    · rw [hd] at hmark
      cases hmark
    · exact ⟨x, hx, hmark⟩

/-- **The flush begins**: the marked instruction leaves the trace queue without being counted. -/
theorem Steady.lost {d : Traced} {rest : List Traced} (h : Steady k s) (hr : s.rROB = d :: rest)
    (hd : d.replay = true) : Lost k (s.committed.length + 1) s.retireTop := by
  obtain ⟨-, htracks⟩ := h.tracks.retireTop hr
  have heq : s.retireTop = { s with flushing := true, ruffer := s.ruffer.advanceTail.2, rROB := rest } := by
    rw [retireTop_cons hr]
    simp [hd]
  rw [heq] at htracks ⊢
  exact ⟨htracks, Nat.lt_succ_self _, h.committed, rfl⟩

theorem Lost.retireTop (h : Lost k r s) : ∃ r, Lost k r s.retireTop := by
  cases hr : s.rROB with
  | nil =>
    rw [retireTop_nil hr]
    exact ⟨r, h⟩
  | cons d rest =>
    obtain ⟨-, htracks⟩ := h.tracks.retireTop hr
    have heq : s.retireTop = { s with ruffer := s.ruffer.advanceTail.2, rROB := rest } := by
      rw [retireTop_cons hr]
      simp [h.flushing]
    rw [heq] at htracks ⊢
    exact ⟨r + 1, htracks, Nat.lt_succ_of_lt h.fewer, h.committed, h.flushing⟩

theorem Lost.iterate (h : Lost k r s) (n : ℕ) : ∃ r, Lost k r (OoOProcessor.retireTop^[n] s) := by
  induction n generalizing s r with
  | zero => exact ⟨r, h⟩
  | succ n ih =>
    obtain ⟨r', h'⟩ := h.retireTop
    exact ih h'

/-- **The second loop of `retire`**, in the steady state: whether a marked instruction is among those that retire
decides what follows. -/
theorem Steady.iterate (h : Steady k s) (n : ℕ) :
    ((∀ d ∈ s.rROB.take n, d.replay = false) → Steady k (OoOProcessor.retireTop^[n] s)) ∧
      ((∃ d ∈ s.rROB.take n, d.replay = true) → ∃ r, Lost k r (OoOProcessor.retireTop^[n] s)) := by
  induction n generalizing s with
  | zero => exact ⟨fun _ => h, by simp⟩
  | succ n ih =>
    rw [Function.iterate_succ_apply]
    cases hr : s.rROB with
    | nil =>
      rw [retireTop_nil hr]
      have hn := ih h
      rw [hr] at hn
      simpa using hn
    | cons d rest =>
      have hrest : s.retireTop.rROB = rest := by rw [retireTop_cons hr]
      rw [List.take_succ_cons]
      cases hd : d.replay with
      | false =>
        obtain ⟨hkeep, hlose⟩ := ih (h.retireTop hr hd)
        rw [hrest] at hkeep hlose
        constructor
        · exact fun hall => hkeep fun x hx => hall x (List.mem_cons_of_mem d hx)
        · rintro ⟨x, hx, hmark⟩
          rcases List.mem_cons.1 hx with rfl | hx
          · rw [hd] at hmark
            cases hmark
          · exact hlose ⟨x, hx, hmark⟩
      | true =>
        constructor
        · intro hall
          have := hall d List.mem_cons_self
          rw [hd] at this
          cases this
        · exact fun _ => (h.lost hr hd).iterate n

theorem Steady.retire (h : Steady k s) (pre ret : ℕ) :
    ((∀ d ∈ (s.rROB ++ s.ROB.take pre).take (min k.retireWidth ret), d.replay = false) →
        Steady k (s.retire k pre ret)) ∧
      ((∃ d ∈ (s.rROB ++ s.ROB.take pre).take (min k.retireWidth ret), d.replay = true) →
        ∃ r, Lost k r (s.retire k pre ret)) := by
  have hpre : Steady k (s.preretire pre) := by
    refine ⟨h.tracks.preretire pre, h.committed, h.flushing, ?_⟩
    intro hrec
    obtain ⟨d, hd, hmark⟩ := h.recovering hrec
    refine ⟨d, ?_, hmark⟩
    show d ∈ (s.rROB ++ s.ROB.take pre) ++ s.ROB.drop pre
    rwa [List.append_assoc, List.take_append_drop]
  exact hpre.iterate _

/-! ## Runs -/

/-- No marked instruction is among those that retire in the step. -/
def Unmarked (k : ProcConfig) (s : OoOProcessor) : Event → Prop
  | .execute _ _ pre ret => ∀ d ∈ (s.rROB ++ s.ROB.take pre).take (min k.retireWidth ret), d.replay = false
  | _ => True

instance (k : ProcConfig) (s : OoOProcessor) : ∀ e, Decidable (Unmarked k s e)
  | .execute _ _ _ _ => inferInstanceAs (Decidable (∀ d ∈ _, _))
  | .add | .fetch _ | .ready _ _ | .replay _ => inferInstanceAs (Decidable True)

/-- **The trace so far.** The instructions counted are the first ones of the trace, each once and in order, and
every other one that was traced is still in the trace queue. -/
def CommitsEach (s : OoOProcessor) : Prop :=
  s.committed = List.range s.committed.length ∧ ∀ n < s.traced, n ∈ s.committed ∨ InTrace s.ruffer n

instance (s : OoOProcessor) : Decidable (CommitsEach s) := inferInstanceAs (Decidable (_ ∧ _))

theorem Steady.commitsEach (h : Steady k s) : CommitsEach s := by
  refine ⟨h.committed, fun n hn => ?_⟩
  rw [h.committed, List.mem_range, h.tracks.inTrace_iff]
  omega

theorem Lost.not_commitsEach (h : Lost k r s) : ¬CommitsEach s := by
  rintro ⟨-, hall⟩
  have hle := h.tracks.le
  have hfew := h.fewer
  rcases hall s.committed.length (by omega) with hmem | hin
  · rw [h.committed, List.length_range, List.mem_range] at hmem
    exact absurd hmem (Nat.lt_irrefl _)
  · rw [h.tracks.inTrace_iff] at hin
    omega

theorem steady_init (k : ProcConfig) : Steady k (init k) := ⟨tracks_init k, rfl, rfl, nofun⟩

theorem Steady.before {t : OoOProcessor} (h : Steady k s) (hb : Before s t) (ht : Tracks k s.committed.length t) :
    Steady k t := by
  refine ⟨by rwa [hb.committed], by rw [hb.committed]; exact h.committed, by rw [hb.flushing]; exact h.flushing, ?_⟩
  rw [hb.recovering]
  intro hrec
  obtain ⟨d, hd, hmark⟩ := h.recovering hrec
  obtain ⟨new, hnew, -⟩ := hb.ROB
  refine ⟨d, ?_, hmark⟩
  rw [hb.rROB, hnew, ← List.append_assoc]
  exact List.mem_append_left _ hd

/-- **Execute** is `retire`, after instructions without a mark have entered the ROB: in the steady state no
recovery ends. -/
theorem Steady.execute_eq (h : Steady k s) (now : ℕ) (answer : ℕ → StallCause) (pre ret : ℕ) :
    ∃ t, Steady k t ∧ Before s t ∧ s.execute k now answer pre ret = t.retire k pre ret := by
  have hbd : Before s (s.decode k now) := before_decode s now
  have hsd : Steady k (s.decode k now) := h.before hbd (h.tracks.decode now)
  unfold OoOProcessor.execute
  generalize s.decode k now = t at hbd hsd
  dsimp only
  split
  · exact ⟨t, hsd, hbd, rfl⟩
  rename_i hnot
  have hrec : t.replayRecovering = false := by
    refine Bool.eq_false_iff.2 fun hrec => hnot ⟨hrec, ?_⟩
    rintro ⟨hr, hR⟩
    obtain ⟨d, hd, -⟩ := hsd.recovering hrec
    rw [hr, hR] at hd
    cases hd
  rw [hrec, if_neg Bool.false_ne_true]
  split
  · obtain ⟨htracks, hissue⟩ := hsd.tracks.issue answer k.issueWidth
    generalize OoOProcessor.issue k answer k.issueWidth t = r at htracks hissue
    have hgive : Before t { r.2 with spaceInInstQueue := r.2.spaceInInstQueue + r.1 } :=
      ⟨hissue.rROB, hissue.ROB, hissue.committed, hissue.flushing, hissue.recovering⟩
    exact ⟨_, hsd.before hgive (htracks.giveBack _), hbd.trans hgive, rfl⟩
  split
  · rename_i hempty
    refine ⟨t, hsd, hbd, ?_⟩
    have htop : t.retireTop = t := retireTop_nil hempty.2
    have hpre : t.preretire pre = t := by
      unfold OoOProcessor.preretire
      rw [hempty.1, List.drop_nil, List.take_nil, List.append_nil, ← hempty.1]
    rw [OoOProcessor.retire, hpre, Function.iterate_fixed htop]
  · exact ⟨t, hsd, hbd, rfl⟩

/-- What enters the ROB before `retire` adds no marked instruction to those that retire. -/
theorem Before.unmarked_iff {t : OoOProcessor} (h : Before s t) (pre n : ℕ) :
    (∀ d ∈ (t.rROB ++ t.ROB.take pre).take n, d.replay = false) ↔
      ∀ d ∈ (s.rROB ++ s.ROB.take pre).take n, d.replay = false := by
  obtain ⟨new, hnew, hclean⟩ := h.ROB
  rw [h.rROB, hnew, List.take_append (i := pre), ← List.append_assoc, List.take_append (i := n)]
  constructor
  · exact fun hall d hd => hall d (List.mem_append_left _ hd)
  · intro hall d hd
    rcases List.mem_append.1 hd with hd | hd
    · exact hall d hd
    · exact hclean d (List.mem_of_mem_take (List.mem_of_mem_take hd))

theorem Steady.execute (h : Steady k s) (now : ℕ) (answer : ℕ → StallCause) (pre ret : ℕ) :
    (Unmarked k s (.execute now answer pre ret) → Steady k (s.execute k now answer pre ret)) ∧
      (¬Unmarked k s (.execute now answer pre ret) → ∃ r, Lost k r (s.execute k now answer pre ret)) := by
  obtain ⟨t, ht, hb, heq⟩ := h.execute_eq now answer pre ret
  obtain ⟨hkeep, hlose⟩ := ht.retire pre ret
  have hiff := hb.unmarked_iff pre (min k.retireWidth ret)
  rw [heq]
  refine ⟨fun hall => hkeep (hiff.2 hall), fun hnot => hlose ?_⟩
  have hnot : ¬∀ d ∈ (t.rROB ++ t.ROB.take pre).take (min k.retireWidth ret), d.replay = false :=
    fun hall => hnot (hiff.1 hall)
  push Not at hnot
  obtain ⟨d, hd, hmark⟩ := hnot
  exact ⟨d, hd, by simpa using hmark⟩

/-- **A step** in which no marked instruction retires keeps the steady state. -/
theorem Steady.step {e : Event} (hs : step k s e = some s') (he : Unmarked k s e) (hroom : Room k 0 s)
    (h : Steady k s) : Steady k s' := by
  cases e <;> simp only [OoOProcessor.step, Option.ite_none_right_eq_some, Option.some.injEq] at hs
  case add =>
    obtain ⟨-, rfl⟩ := hs
    exact ⟨h.tracks.add, h.committed, h.flushing, h.recovering⟩
  case fetch stall =>
    subst hs
    refine h.before ?_ (h.tracks.fetch hroom stall)
    unfold OoOProcessor.fetch
    split
    · exact .refl s
    · exact before_of_ROB rfl rfl rfl rfl rfl
  case ready b now =>
    obtain ⟨hb, rfl⟩ := hs
    exact ⟨h.tracks.ready now hb, h.committed, h.flushing, h.recovering⟩
  case replay i =>
    obtain ⟨hi, rfl⟩ := hs
    refine ⟨h.tracks.replay i, h.committed, h.flushing, fun _ => ⟨{ s.ROB[i] with replay := true }, ?_, rfl⟩⟩
    refine List.mem_append_right _ (List.mem_iff_getElem?.2 ⟨i, ?_⟩)
    show (s.ROB.modify i _)[i]? = _
    rw [List.getElem?_modify, List.getElem?_eq_getElem hi]
    simp
  case execute now answer pre ret =>
    subst hs
    exact (h.execute now answer pre ret).1 he

/-- **A replay loses what it should repeat.** In every run: every instruction is counted once and in trace order,
or still in the trace queue, in all states exactly as long as no instruction that a replay has marked
retires. -/
theorem commits_each_iff (k : ProcConfig) (es : List Event) {s : OoOProcessor}
    (h : run (step k) (init k) es = some s) :
    (∀ es' t, es' <+: es → run (step k) (init k) es' = some t → CommitsEach t) ↔
      Along (step k) (Unmarked k) (init k) es := by
  refine forall_prefix_iff_along (D := fun _ _ => True) (I := fun s => Room k 0 s ∧ Steady k s)
    (fun s hs => hs.2.commitsEach) (fun s e s' hs _ he hI => ⟨hI.1.step hs, hI.2.step hs he hI.1⟩) ?_ h
    (Along.of_forall (fun _ _ => trivial) _ _) ⟨room_init k, steady_init k⟩
  rintro s e s' hs - he ⟨-, hI⟩
  cases e with
  | execute now answer pre ret =>
    obtain rfl : s.execute k now answer pre ret = s' := Option.some.inj hs
    obtain ⟨r, hlost⟩ := (hI.execute now answer pre ret).2 he
    exact hlost.not_commitsEach
  | _ => exact absurd trivial he

/-- Two instructions: the first is a load that is replayed when it is in the ROB and the second still in
`instQueue`. -/
def replayed : List Event :=
  oneIssued ++ [.replay 0, .execute 2 (fun _ => .NoStall) 1 1, .execute 3 (fun _ => .NoStall) 1 1, .fetch fun _ => false,
    .ready ⟨3, 1, 0, [⟨1, false⟩]⟩ 4, .execute 5 (fun _ => .NoStall) 1 1]

theorem commits_each_iff_oneIssued :
    ∃ s, run (step smallCore) (init smallCore) (oneIssued ++ [.execute 2 (fun _ => .NoStall) 1 1]) = some s ∧
      s.committed = [0] ∧ CommitsEach s := by
  have hend : (run (step smallCore) (init smallCore) (oneIssued ++ [.execute 2 (fun _ => .NoStall) 1 1])).any
      (fun s => s.committed == [0]) = true := by
    decide +kernel
  obtain ⟨s, hrun, hs⟩ := (Option.any_eq_true _ _).1 hend
  have halong : Along (step smallCore) (Unmarked smallCore) (init smallCore)
      (oneIssued ++ [.execute 2 (fun _ => .NoStall) 1 1]) := by
    decide +kernel
  exact ⟨s, hrun, beq_iff_eq.1 hs, (commits_each_iff smallCore _ hrun).2 halong _ s (List.prefix_refl _) hrun⟩

/-- **The second instruction is counted twice** and the load never: it is out of the trace queue. -/
theorem replay_commits_twice :
    ∃ s, run (step smallCore) (init smallCore) replayed = some s ∧ s.traced = 2 ∧ s.committed = [1, 1] ∧
      s.ruffer.size = 0 ∧ ¬CommitsEach s := by
  have hend : (run (step smallCore) (init smallCore) replayed).any
      (fun s => s.traced == 2 && s.committed == [1, 1] && s.ruffer.size == 0) = true := by
    decide +kernel
  obtain ⟨s, hrun, hs⟩ := (Option.any_eq_true _ _).1 hend
  simp only [Bool.and_eq_true, beq_iff_eq] at hs
  obtain ⟨⟨htraced, hcom⟩, hsize⟩ := hs
  refine ⟨s, hrun, htraced, hcom, hsize, ?_⟩
  rintro ⟨hrange, -⟩
  rw [hcom] at hrange
  exact absurd hrange (by decide)

end Esesc.Core.OoOProcessor
