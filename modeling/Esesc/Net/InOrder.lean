import Mathlib.Tactic.Common
import Mathlib.Algebra.BigOperators.Intervals
import Esesc.Net.Traffic

/-!
# Order and latency under traffic

Where the network models contention, a message goes from router to router. No two messages are on a link at a time.
With `fixMessagePath` all messages from one router to another take one way, and none overtakes another on it. What a
message takes beyond its hops it has waited for ports.

* `Came`: the way of a message.
* `Tracked`: what every run keeps of the ways; `Tracked.step`.
* `links_apart`: messages on one link.
* `in_order`: messages to one router.
* `latency_exact`: the cycles between the launch of a message and its reception.
-/

namespace Esesc.Net

open Esesc.Lib Esesc.Suc RoutingPolicy

/-- **The way of a message** to where it is: the hops made, the last one first, the router, and the cycle in which it
is there. -/
inductive Came (cfg : NetConfig) (A : Adjacent) (msg : Message) (start : ℕ) : List Hop → ℕ → ℕ → Prop
  | start : Came cfg A msg start [] msg.srcRouterID start
  | hop {hops : List Hop} {r time : ℕ} (slot : ℕ) (y : Wire) : Came cfg A msg start hops r time →
      r ≠ msg.dstRouterID → y ∈ cfg.wires A r msg.dstRouterID → cfg.Closer r msg.dstRouterID y → time ≤ slot →
      Came cfg A msg start (⟨r, time, slot, y⟩ :: hops) y.rID (slot + cfg.crossLat + y.dist)

/-- Where a message is that was not sent to the port it came from. -/
def Flight.On (cfg : NetConfig) (A : Adjacent) (globalClock : ℕ) (f : Flight) : Prop :=
  match f.event with
  | .forwardMsg router => f.received = none ∧ Came cfg A f.msg f.start f.hops router f.time
  | .receiveMsg _ => False
  | .notifyMsg _ => ∃ τ ≤ globalClock, f.received = some τ ∧ Came cfg A f.msg f.start f.hops f.msg.dstRouterID τ

/-- Its history. -/
structure Flight.History (cfg : NetConfig) (A : Adjacent) (globalClock : ℕ) (f : Flight) : Prop where
  accepts : cfg.Accepts f.msg
  same : f.msg.Same → f.hops = [] ∧ f.event = .notifyMsg f.msg.dstRouterID
  other : ¬f.msg.Same → f.On cfg A globalClock ∧ f.launchTime + cfg.addFixDelay ≤ f.start

/-- The flits of a message are on a link from the slot of its hop on, and the first one comes before the second. -/
def Hop.Before (h : Hop) (n : ℕ) (h' : Hop) : Prop := h.slot + n ≤ h'.slot ∧ h.time ≤ h'.time

/-- Two hops over one link. -/
def Hop.OneLink (h h' : Hop) : Prop := h.router = h'.router ∧ h.wire.port = h'.wire.port

/-- All messages, wherever they are. -/
def Traffic.messages (s : Traffic) : List Flight := s.flights ++ s.notified

/-- A hop that was made. -/
structure Hop.Made (net : InterConnection) (globalClock n : ℕ) (h : Hop) : Prop where
  past : h.time ≤ globalClock
  port : ∃ port, (net.routers h.router).r2rPort h.wire.port = some port ∧ h.slot + n ≤ port.lTime

/-- **What every run keeps** of the ways. -/
structure Tracked (cfg : NetConfig) (A : Adjacent) (s : Traffic) : Prop where
  flowing : Flowing cfg A s
  history : ∀ f ∈ s.messages, f.History cfg A s.globalClock
  made : ∀ f ∈ s.messages, ∀ h ∈ f.hops, h.Made s.net s.globalClock f.msg.numFlits
  apart : ∀ f ∈ s.messages, ∀ g ∈ s.messages, f.id ≠ g.id → ∀ h ∈ f.hops, ∀ h' ∈ g.hops, h.OneLink h' →
    h.Before f.msg.numFlits h' ∨ h'.Before g.msg.numFlits h

section Ways

variable {cfg : NetConfig} {A : Adjacent} {msg : Message} {start r time : ℕ} {hops : List Hop} {h h' : Hop}

theorem Came.mem (hc : Came cfg A msg start hops r time) (hh : h ∈ hops) :
    h.router ≠ msg.dstRouterID ∧ h.wire ∈ cfg.wires A h.router msg.dstRouterID ∧
      cfg.Closer h.router msg.dstRouterID h.wire := by
  induction hc with
  | start => cases hh
  | hop slot y _ hne hy hcloser _ ih =>
    rcases List.mem_cons.1 hh with rfl | hh
    · exact ⟨hne, hy, hcloser⟩
    · exact ih hh

/-- After a hop, the message came to the router at the end of the wire. -/
theorem Came.after (hc : Came cfg A msg start hops r time) (hh : h ∈ hops) :
    (∃ h' ∈ hops, h'.router = h.wire.rID ∧ h'.time = h.slot + cfg.crossLat + h.wire.dist) ∨
      (r = h.wire.rID ∧ time = h.slot + cfg.crossLat + h.wire.dist) := by
  induction hc with
  | start => cases hh
  | hop slot y _ hne hy hcloser hle ih =>
    rcases List.mem_cons.1 hh with rfl | hh
    · exact .inr ⟨rfl, rfl⟩
    · left
      rcases ih hh with ⟨h', hh', hnext⟩ | ⟨hr, htime⟩
      · exact ⟨h', List.mem_cons_of_mem _ hh', hnext⟩
      · exact ⟨_, List.mem_cons_self, hr, htime⟩

/-- The cycles that a message waited for links. -/
def waited : List Hop → ℕ
  | [] => 0
  | h :: hops => h.slot - h.time + waited hops

/-- Every hop takes the whole distance that is left. -/
theorem Came.time_eq (hc : Came cfg A msg start hops r time) :
    time + cfg.hopLat * ((cfg.hops r msg.dstRouterID + 1) * cfg.hops r msg.dstRouterID / 2) =
      start + waited hops + cfg.hopLat *
        ((cfg.hops msg.srcRouterID msg.dstRouterID + 1) * cfg.hops msg.srcRouterID msg.dstRouterID / 2) := by
  induction hc with
  | start => rfl
  | @hop hops r time slot y _ hne hy hcloser hle ih =>
    have hone := hcloser.hop
    have htri := Nat.triangle_succ (cfg.hops r msg.dstRouterID)
    have hdist := hcloser.dist
    rw [← hone, Nat.add_sub_cancel, Nat.add_sub_cancel] at htri
    rw [← hone] at ih hdist
    rw [htri, Nat.mul_add, Nat.mul_comm cfg.hopLat (cfg.hops y.rID msg.dstRouterID + 1), ← hdist] at ih
    rw [waited]
    simp only
    omega

/-- A hop for every link. -/
theorem Came.length_eq (hc : Came cfg A msg start hops r time) :
    hops.length + cfg.hops r msg.dstRouterID = cfg.hops msg.srcRouterID msg.dstRouterID := by
  induction hc with
  | start => exact Nat.zero_add _
  | hop slot y _ hne hy hcloser hle ih =>
    have hone := hcloser.hop
    rw [List.length_cons]
    omega

end Ways

/-! ## Links -/

section Link

variable {net net' : InterConnection} {h : Hop} {r p c k n slot : ℕ}

/-- A message that comes to a port is behind those that have left through it. -/
theorem LinkUse.later (huse : LinkUse net r p c k slot net') (hm : h.Made net c n) (hr : h.router = r)
    (hp : h.wire.port = p) : h.slot + n ≤ slot := by
  obtain ⟨port, hport, rfl, -⟩ := huse
  obtain ⟨port', hport', hle⟩ := hm.port
  rw [hr, hp, hport] at hport'
  obtain rfl := Option.some.inj hport'
  refine Nat.le_trans hle ?_
  rw [PortFullyPipe.occupySlots]
  show port.lTime ≤ if port.lTime < c then c else port.lTime
  split <;> omega

theorem LinkUse.made (huse : LinkUse net r p c k slot net') (hm : h.Made net c n) : h.Made net' c n := by
  refine ⟨hm.past, ?_⟩
  by_cases hlink : h.router = r ∧ h.wire.port = p
  · have hlater := huse.later hm hlink.1 hlink.2
    obtain ⟨port, hport, rfl, hports⟩ := huse
    rw [hports, if_pos hlink]
    exact ⟨_, rfl, Nat.le_trans hlater (Nat.le_add_right _ k)⟩
  · obtain ⟨port, hport, hle⟩ := hm.port
    obtain ⟨_, -, -, hports⟩ := huse
    rw [hports, if_neg hlink]
    exact ⟨port, hport, hle⟩

theorem LinkUse.new {y : Wire} (huse : LinkUse net r y.port c k slot net') :
    (Hop.mk r c slot y).Made net' c k := by
  obtain ⟨port, hport, rfl, hports⟩ := huse
  refine ⟨Nat.le_refl c, ?_⟩
  rw [hports, if_pos ⟨rfl, rfl⟩]
  exact ⟨_, rfl, Nat.le_refl _⟩

end Link

/-! ## Every run -/

section Runs

variable {cfg : NetConfig} {A : Adjacent} {s t : Traffic} {f g : Flight} {fs : List Flight} {a : Act} {as : List Act}
  {c c' : ℕ}

theorem Flight.History.mono (hf : f.History cfg A c) (hc : c ≤ c') : f.History cfg A c' := by
  refine ⟨hf.accepts, hf.same, fun hne => ⟨?_, (hf.other hne).2⟩⟩
  have hon := (hf.other hne).1
  unfold Flight.On at hon ⊢
  cases hevent : f.event with
  | forwardMsg router | receiveMsg router =>
    rw [hevent] at hon
    exact hon
  | notifyMsg router =>
    rw [hevent] at hon
    obtain ⟨τ, hτ, hreceived⟩ := hon
    exact ⟨τ, Nat.le_trans hτ hc, hreceived⟩

theorem mem_messages (hfs : (f :: fs).Perm s.flights) :
    f ∈ s.messages ∧ ∀ g ∈ fs ++ s.notified, g ∈ s.messages := by
  refine ⟨List.mem_append_left _ (hfs.mem_iff.1 List.mem_cons_self), fun g hg => ?_⟩
  rcases List.mem_append.1 hg with hg | hg
  · exact List.mem_append_left _ (hfs.mem_iff.1 (List.mem_cons_of_mem f hg))
  · exact List.mem_append_right _ hg

/-- The messages of `t` are those of `s`, and new ones without hops. -/
def SameHops (s t : Traffic) : Prop :=
  ∀ g ∈ t.messages, g.hops = [] ∨ ∃ f ∈ s.messages, f.id = g.id ∧ f.msg = g.msg ∧ f.hops = g.hops

theorem Tracked.of_sameHops (hs : Tracked cfg A s) (ht : Flowing cfg A t)
    (hhistory : ∀ g ∈ t.messages, g.History cfg A t.globalClock) (hhops : SameHops s t)
    (hports : ∀ i, (t.net.routers i).r2rPort = (s.net.routers i).r2rPort) (hclock : s.globalClock ≤ t.globalClock) :
    Tracked cfg A t := by
  refine ⟨ht, hhistory, fun g hg h hh => ?_, fun g hg g' hg' hne h hh h' hh' hlink => ?_⟩
  · rcases hhops g hg with hnil | ⟨f, hf, -, hmsg, heq⟩
    · rw [hnil] at hh
      cases hh
    · rw [← heq] at hh
      obtain ⟨hpast, hport⟩ := hs.made f hf h hh
      rw [← hports, hmsg] at hport
      exact ⟨Nat.le_trans hpast hclock, hport⟩
  · rcases hhops g hg with hnil | ⟨f, hf, hid, hmsg, heq⟩
    · rw [hnil] at hh
      cases hh
    · rcases hhops g' hg' with hnil' | ⟨f', hf', hid', hmsg', heq'⟩
      · rw [hnil'] at hh'
        cases hh'
      · rw [← hmsg, ← hmsg']
        rw [← heq] at hh
        rw [← heq'] at hh'
        exact hs.apart f hf f' hf' (by rwa [hid, hid']) h hh h' hh' hlink

/-- A message that is called to be forwarded. -/
theorem Flight.History.forward {r : ℕ} (hf : f.History cfg A c) (hevent : f.event = .forwardMsg r) :
    ¬f.msg.Same ∧ f.received = none ∧ Came cfg A f.msg f.start f.hops r f.time ∧
      f.launchTime + cfg.addFixDelay ≤ f.start := by
  have hne : ¬f.msg.Same := by
    intro hsame
    have := (hf.same hsame).2
    rw [hevent] at this
    cases this
  obtain ⟨hon, hstart⟩ := hf.other hne
  rw [Flight.On, hevent] at hon
  exact ⟨hne, hon.1, hon.2, hstart⟩

/-- One that is called to be received was forwarded to where it is. -/
theorem Flight.History.arrived (hf : f.History cfg A c)
    (hevent : f.event = .forwardMsg f.msg.dstRouterID ∨ f.event = .receiveMsg f.msg.dstRouterID) :
    f.event = .forwardMsg f.msg.dstRouterID := by
  refine hevent.resolve_right fun hevent => ?_
  by_cases hsame : f.msg.Same
  · have := (hf.same hsame).2
    rw [hevent] at this
    cases this
  · have hon := (hf.other hsame).1
    rw [Flight.On, hevent] at hon
    exact hon

/-- **The step lemma.** -/
theorem Tracked.step (hfree : cfg.congestionFree = false) (hs : Tracked cfg A s) (heffect : s.Effect cfg A a t) :
    Tracked cfg A t := by
  have ht := hs.flowing.step heffect
  cases heffect with
  | same msg slot r2lPort hmsg hsame hle halive =>
    refine hs.of_sameHops ht (List.forall_mem_cons.2 ⟨⟨hmsg, fun _ => ⟨rfl, rfl⟩, fun hne => absurd hsame hne⟩,
        hs.history⟩)
      (List.forall_mem_cons.2 ⟨.inl rfl, fun g hg => .inr ⟨g, hg, rfl, rfl, rfl⟩⟩) (fun _ => rfl) (Nat.le_refl _)
  | launch msg slot net hmsg hne hle halive hports =>
    refine hs.of_sameHops ht (List.forall_mem_cons.2 ⟨⟨hmsg, fun hsame => absurd hsame hne,
        fun _ => ⟨?_, ?_⟩⟩, hs.history⟩)
      (List.forall_mem_cons.2 ⟨.inl rfl, fun g hg => .inr ⟨g, hg, rfl, rfl, rfl⟩⟩) hports (Nat.le_refl _)
    · simp only [Flight.On, hfree, Bool.false_eq_true, if_false]
      exact ⟨trivial, .start⟩
    · exact Nat.add_le_add_right hle _
  | receive k f fs slot r2lPort hfs htime hevent hle halive =>
    obtain ⟨hf, hrest⟩ := mem_messages hfs
    obtain ⟨hne, -, hcame, hstart⟩ := (hs.history f hf).forward ((hs.history f hf).arrived hevent)
    refine hs.of_sameHops ht (List.forall_mem_cons.2 ⟨⟨(hs.history f hf).accepts,
        fun hsame => absurd hsame hne, fun _ => ⟨?_, hstart⟩⟩,
        fun g hg => hs.history g (hrest g hg)⟩)
      (List.forall_mem_cons.2 ⟨.inr ⟨f, hf, rfl, rfl, rfl⟩, fun g hg => .inr ⟨g, hrest g hg, rfl, rfl, rfl⟩⟩)
      (fun _ => rfl) (Nat.le_refl _)
    rw [htime] at hcame
    exact ⟨s.globalClock, Nat.le_refl _, rfl, hcame⟩
  | notify k f fs hfs htime hevent =>
    obtain ⟨hf, hrest⟩ := mem_messages hfs
    have hmem : ∀ g ∈ fs ++ f :: s.notified, g ∈ s.messages := by
      intro g hg
      rcases List.mem_cons.1 (List.perm_middle.mem_iff.1 hg) with rfl | hg
      · exact hf
      · exact hrest g hg
    exact hs.of_sameHops ht (fun g hg => hs.history g (hmem g hg)) (fun g hg => .inr ⟨g, hmem g hg, rfl, rfl, rfl⟩)
      (fun _ => rfl) (Nat.le_refl _)
  | tick hidle =>
    exact hs.of_sameHops ht (fun g hg => (hs.history g hg).mono (Nat.le_succ _)) (fun g hg => .inr ⟨g, hg, rfl, rfl, rfl⟩)
      (fun _ => rfl) (Nat.le_succ _)
  | hop k f fs r slot y net hfs htime hevent hne hy hcloser hle huse halive =>
    obtain ⟨hf, hrest⟩ := mem_messages hfs
    obtain ⟨hother, hreceived, hcame, hstart⟩ := (hs.history f hf).forward hevent
    rw [htime] at hcame
    refine ⟨ht, ?_, ?_, ?_⟩
    · exact List.forall_mem_cons.2 ⟨⟨(hs.history f hf).accepts, fun hsame => absurd hsame hother, fun _ =>
        ⟨⟨hreceived, .hop slot y hcame hne hy hcloser hle⟩, hstart⟩⟩, fun g hg => hs.history g (hrest g hg)⟩
    · exact List.forall_mem_cons.2 ⟨List.forall_mem_cons.2 ⟨huse.new, fun h hh => huse.made (hs.made f hf h hh)⟩,
        fun g hg h hh => huse.made (hs.made g (hrest g hg) h hh)⟩
    · -- the new hop is behind all others on its link
      have hbehind : ∀ g ∈ s.messages, ∀ h ∈ g.hops, h.OneLink ⟨r, s.globalClock, slot, y⟩ →
          h.Before g.msg.numFlits ⟨r, s.globalClock, slot, y⟩ := fun g hg h hh hlink =>
        ⟨huse.later (hs.made g hg h hh) hlink.1 hlink.2, (hs.made g hg h hh).past⟩
      refine List.forall_mem_cons.2 ⟨List.forall_mem_cons.2 ⟨fun hne' => absurd rfl hne', fun g hg hne' => ?_⟩,
        fun g hg => List.forall_mem_cons.2 ⟨fun hne' => ?_, fun g' hg' => hs.apart g (hrest g hg) g' (hrest g' hg')⟩⟩
      · refine List.forall_mem_cons.2 ⟨fun h' hh' hlink => ?_, hs.apart f hf g (hrest g hg) hne'⟩
        exact .inr (hbehind g (hrest g hg) h' hh' ⟨hlink.1.symm, hlink.2.symm⟩)
      · intro h hh
        refine List.forall_mem_cons.2 ⟨fun hlink => .inl (hbehind g (hrest g hg) h hh hlink), ?_⟩
        exact hs.apart g (hrest g hg) f hf hne' h hh

/-- **The run lemma.** -/
theorem Tracked.of_run (h : cfg.Routable) (hocc : cfg.localOcc ≤ 32700) (hfree : cfg.congestionFree = false)
    (hnew : cfg.traffic c = some s) (has : ∀ a ∈ as, Accepted cfg a) (hrun : run Traffic.step s as = some t) :
    ∃ A, make cfg.nRouters cfg.crossLat cfg.adjacent = some A ∧ Tracked cfg A t := by
  obtain ⟨A, hA, hs⟩ := Flowing.new hocc hnew
  obtain ⟨-, -, -, -, -, hflights, hnotified⟩ := Alive.new hocc hnew
  have hempty : s.messages = [] := by rw [Traffic.messages, hflights, hnotified, List.append_nil]
  have hstart : Tracked cfg A s := by
    refine ⟨hs, ?_, ?_, ?_⟩ <;> simp [hempty]
  refine ⟨A, hA, run_inv_along (fun _ _ _ hstep ha hs => ?_) hrun (.of_forall_mem (fun a ha _ => has a ha) s) hstart⟩
  exact hs.step hfree (hs.flowing.effect h hA ha hstep)

end Runs

/-! ## Results -/

section Results

variable {cfg : NetConfig} {s t : Traffic} {as : List Act} {c : ℕ}

/-- The ring of four, where all messages between two routers take one way. -/
def fixedRing : NetConfig := { InterConnection.ring with fixMessagePath := true }

theorem routable_fixedRing : fixedRing.Routable := ⟨by decide, by decide, by decide⟩

/-- Two messages over two hops, until both are received. -/
def pairActs : List Act :=
  [.launch ⟨0, LOCAL_PORT1, 2, LOCAL_PORT1, 1⟩, .launch ⟨0, LOCAL_PORT1, 2, LOCAL_PORT1, 1⟩, .call 1, .tick, .call 1, .tick,
    .tick, .tick, .call 1, .tick, .call 1, .tick, .call 1, .tick, .call 1, .call 1]

theorem accepted_pairActs : ∀ a ∈ pairActs, Accepted fixedRing a := by
  have hmsg : fixedRing.Accepts ⟨0, LOCAL_PORT1, 2, LOCAL_PORT1, 1⟩ := by decide
  simp [pairActs, Accepted, hmsg]

/-- One of them in the end. -/
def Flight.Across (f : Flight) (received : ℕ) : Prop :=
  (f.msg.srcRouterID = 0 ∧ f.msg.dstRouterID = 2 ∧ f.msg.numFlits = 1) ∧ f.received = some received

instance (f : Flight) (received : ℕ) : Decidable (f.Across received) := inferInstanceAs (Decidable (_ ∧ _))

/-- The second one followed the first one over a link. -/
def Flight.FollowedBy (f g : Flight) : Prop :=
  f.id ≠ g.id ∧ ∃ h ∈ f.hops, ∃ h' ∈ g.hops,
    (h.router = h'.router ∧ h.wire.port = h'.wire.port) ∧ h.time < h'.time ∧ h.slot < h'.slot

instance (f g : Flight) : Decidable (f.FollowedBy g) := inferInstanceAs (Decidable (_ ∧ _))

theorem exists_pair : ∃ s t, fixedRing.traffic 0 = some s ∧ run Traffic.step s pairActs = some t ∧
    ∃ f ∈ t.messages, ∃ g ∈ t.messages, f.Across 6 ∧ g.Across 7 ∧ f.FollowedBy g := by
  have hrun : ((fixedRing.traffic 0).bind fun s => run Traffic.step s pairActs).any (fun t =>
      decide (∃ f ∈ t.messages, ∃ g ∈ t.messages, f.Across 6 ∧ g.Across 7 ∧ f.FollowedBy g)) = true := by decide +kernel
  obtain ⟨t, ht, hpair⟩ := (Option.any_eq_true _ _).1 hrun
  obtain ⟨s, hs, ht⟩ := Option.bind_eq_some_iff.1 ht
  exact ⟨s, t, hs, ht, of_decide_eq_true hpair⟩

/-- **Links** carry one message at a time. When two messages went over one link, the flits of one had left before the
other began, and the one that came first was the first. -/
theorem links_apart (h : cfg.Routable) (hocc : cfg.localOcc ≤ 32700) (hfree : cfg.congestionFree = false)
    (hnew : cfg.traffic c = some s) (has : ∀ a ∈ as, Accepted cfg a) (hrun : run Traffic.step s as = some t) :
    ∀ f ∈ t.messages, ∀ g ∈ t.messages, f.id ≠ g.id → ∀ h ∈ f.hops, ∀ h' ∈ g.hops, h.OneLink h' →
      (h.slot + f.msg.numFlits ≤ h'.slot ∨ h'.slot + g.msg.numFlits ≤ h.slot) ∧
        (h.time < h'.time → h.slot + f.msg.numFlits ≤ h'.slot) := by
  obtain ⟨A, -, ht⟩ := Tracked.of_run h hocc hfree hnew has hrun
  intro f hf g hg hne h hh h' hh' hlink
  rcases ht.apart f hf g hg hne h hh h' hh' hlink with ⟨hslot, htime⟩ | ⟨hslot, htime⟩
  · exact ⟨.inl hslot, fun _ => hslot⟩
  · exact ⟨.inr hslot, fun hlt => absurd hlt (Nat.not_lt.2 htime)⟩

theorem links_apart_pair : ∃ s t, fixedRing.traffic 0 = some s ∧ run Traffic.step s pairActs = some t ∧
    ∃ f ∈ t.messages, ∃ g ∈ t.messages, ∃ h ∈ f.hops, ∃ h' ∈ g.hops, h.OneLink h' ∧ h.time < h'.time ∧
      h.slot + f.msg.numFlits ≤ h'.slot := by
  obtain ⟨s, t, hs, ht, f, hf, g, hg, -, -, hne, h, hh, h', hh', hlink, htime, -⟩ := exists_pair
  exact ⟨s, t, hs, ht, f, hf, g, hg, h, hh, h', hh', hlink, htime,
    (links_apart routable_fixedRing (by decide) rfl hs accepted_pairActs ht f hf g hg hne h hh h' hh' hlink).2 htime⟩

variable {A : Adjacent} {f g : Flight} {h h' : Hop}

/-- Where a message is that has made hops. -/
theorem Tracked.way (ht : Tracked cfg A t) (hf : f ∈ t.messages) (hh : h ∈ f.hops) :
    ∃ r time, Came cfg A f.msg f.start f.hops r time ∧
      ((t.globalClock ≤ time ∧ f.received = none) ∨
        (r = f.msg.dstRouterID ∧ f.received = some time ∧ time ≤ t.globalClock)) := by
  have hne : ¬f.msg.Same := by
    intro hsame
    rw [((ht.history f hf).same hsame).1] at hh
    cases hh
  have hon := ((ht.history f hf).other hne).1
  rw [Flight.On] at hon
  cases hevent : f.event with
  | forwardMsg router =>
    rw [hevent] at hon
    refine ⟨router, f.time, hon.2, .inl ⟨?_, hon.1⟩⟩
    rcases List.mem_append.1 hf with hf | hf
    · exact (ht.flowing.flights f hf).due
    · have hdone := ht.flowing.notified f hf
      rw [hevent] at hdone
      cases hdone
  | receiveMsg router =>
    rw [hevent] at hon
    exact hon.elim
  | notifyMsg router =>
    rw [hevent] at hon
    obtain ⟨τ, hτ, hreceived, hcame⟩ := hon
    exact ⟨_, τ, hcame, .inr ⟨rfl, hreceived, hτ⟩⟩

/-- With `fixMessagePath` there is one wire to a destination. -/
theorem Tracked.one_wire (hr : cfg.Routable) (hA : make cfg.nRouters cfg.crossLat cfg.adjacent = some A)
    (hfix : cfg.fixMessagePath = true) (ht : Tracked cfg A t) (hf : f ∈ t.messages) (hg : g ∈ t.messages)
    (hdst : f.msg.dstRouterID = g.msg.dstRouterID) (hh : h ∈ f.hops) (hh' : h' ∈ g.hops)
    (hrouter : h.router = h'.router) : h.wire = h'.wire := by
  obtain ⟨_, _, hcame, -⟩ := ht.way hf hh
  obtain ⟨_, _, hcame', -⟩ := ht.way hg hh'
  obtain ⟨hat, hwire, hcloser⟩ := hcame.mem hh
  obtain ⟨-, hwire', -⟩ := hcame'.mem hh'
  obtain ⟨A', hmake, hrows⟩ := cfg.lookups_hops hr
  obtain rfl : A = A' := Option.some.inj (hA.symm.trans hmake)
  have hs : h.router < cfg.nRouters := (cfg.oneLatency.row_link hcloser.link).1
  obtain ⟨y, -, hone⟩ := (hrows h.router hs _ (ht.history f hf).accepts.dst hat).2.1 hfix
  rw [NetConfig.wires, hone, List.mem_singleton] at hwire
  rw [NetConfig.wires, ← hdst, ← hrouter, hone, List.mem_singleton] at hwire'
  rw [hwire, hwire']

/-- **Overtaking** never happens on the way that all messages between two routers take. The induction is on the links
that are left. -/
theorem Tracked.not_overtaken (hr : cfg.Routable) (hA : make cfg.nRouters cfg.crossLat cfg.adjacent = some A)
    (hfix : cfg.fixMessagePath = true) (ht : Tracked cfg A t) (hf : f ∈ t.messages) (hg : g ∈ t.messages)
    (hne : f.id ≠ g.id) (hdst : f.msg.dstRouterID = g.msg.dstRouterID) (hflits : 0 < f.msg.numFlits) {τ' : ℕ}
    (hreceived : g.received = some τ') : ∀ k h h', h ∈ f.hops → h' ∈ g.hops →
      cfg.hops h.router f.msg.dstRouterID = k → h.router = h'.router → h.slot < h'.slot →
      ∃ τ < τ', f.received = some τ := by
  intro k
  induction k with
  | zero =>
    intro h h' hh hh' hk hrouter hslot
    obtain ⟨_, _, hcame, -⟩ := ht.way hf hh
    -- a hop from a router where no link is left
    have hone := (hcame.mem hh).2.2.hop
    omega
  | succ k ih =>
    intro h h' hh hh' hk hrouter hslot
    obtain ⟨r, time, hcame, hpos⟩ := ht.way hf hh
    obtain ⟨r', time', hcame', hpos'⟩ := ht.way hg hh'
    have hsame := ht.one_wire hr hA hfix hf hg hdst hh hh' hrouter
    have hone := (hcame.mem hh).2.2.hop
    rcases hcame'.after hh' with ⟨b, hb, hbr, hbt⟩ | ⟨hr', ht'⟩
    · have hpast := (ht.made g hg b hb).past
      rw [← hsame] at hbr hbt
      rcases hcame.after hh with ⟨a, ha, har, hat⟩ | ⟨hr₁, ht₁⟩
      · -- both were at the next router
        have hwire := ht.one_wire hr hA hfix hf hg hdst ha hb (har.trans hbr.symm)
        refine ih a b ha hb ?_ (har.trans hbr.symm) ?_
        · rw [har]
          omega
        · rcases ht.apart f hf g hg hne a ha b hb ⟨har.trans hbr.symm, by rw [hwire]⟩ with ⟨hslots, -⟩ | ⟨-, htimes⟩
          · omega
          · omega
      · -- the second one has come to the next router, and the first one is not there yet
        rcases hpos with ⟨hlate, -⟩ | ⟨hend, -⟩
        · omega
        · exact absurd (hbr.trans (hr₁.symm.trans (hend.trans hdst))) (hcame'.mem hb).1
    · rcases hpos' with ⟨-, hnone⟩ | ⟨hend', hτ', hpast⟩
      · rw [hreceived] at hnone
        cases hnone
      · -- the second one was received at the next router
        obtain rfl : τ' = time' := Option.some.inj (hreceived.symm.trans hτ')
        rw [← hsame] at hr' ht'
        rcases hcame.after hh with ⟨a, ha, har, -⟩ | ⟨-, ht₁⟩
        · exact absurd (har.trans (hr'.symm.trans (hend'.trans hdst.symm))) (hcame.mem ha).1
        · rcases hpos with ⟨hlate, -⟩ | ⟨-, hτ, -⟩
          · omega
          · exact ⟨time, by omega, hτ⟩

/-- **Order.** With `fixMessagePath`, of two messages for one router the one that left some router first on their way
is received first, whatever traffic there is. -/
theorem in_order (hr : cfg.Routable) (hocc : cfg.localOcc ≤ 32700) (hfree : cfg.congestionFree = false)
    (hfix : cfg.fixMessagePath = true) (hnew : cfg.traffic c = some s) (has : ∀ a ∈ as, Accepted cfg a)
    (hrun : run Traffic.step s as = some t) :
    ∀ f ∈ t.messages, ∀ g ∈ t.messages, f.id ≠ g.id → f.msg.dstRouterID = g.msg.dstRouterID → 0 < f.msg.numFlits →
      ∀ h ∈ f.hops, ∀ h' ∈ g.hops, h.router = h'.router → h.slot < h'.slot →
        ∀ τ', g.received = some τ' → ∃ τ < τ', f.received = some τ := by
  obtain ⟨A, hA, ht⟩ := Tracked.of_run hr hocc hfree hnew has hrun
  intro f hf g hg hne hdst hflits h hh h' hh' hrouter hslot τ' hreceived
  exact ht.not_overtaken hr hA hfix hf hg hne hdst hflits hreceived _ h h' hh hh' rfl hrouter hslot

theorem in_order_pair : ∃ s t, fixedRing.traffic 0 = some s ∧ run Traffic.step s pairActs = some t ∧
    ∃ f ∈ t.messages, ∃ g ∈ t.messages, f.id ≠ g.id ∧ g.received = some 7 ∧ ∃ τ < 7, f.received = some τ := by
  obtain ⟨s, t, hs, ht, f, hf, g, hg, ⟨⟨-, hdst, hflits⟩, -⟩, ⟨⟨-, hdst', -⟩, hreceived⟩, hne, h, hh, h', hh', hlink, -,
    hslot⟩ := exists_pair
  exact ⟨s, t, hs, ht, f, hf, g, hg, hne, hreceived,
    in_order routable_fixedRing (by decide) rfl rfl hs accepted_pairActs ht f hf g hg hne (hdst.trans hdst'.symm)
      (hflits ▸ Nat.one_pos) h hh h' hh' hlink.1 hslot 7 hreceived⟩

/-- **Latency.** A message that was received has made a hop for every link between its routers. It was received when it
had waited for the links, and every hop had taken the distance that was left at its start: with `H` links, as long as
`H * (H + 1) / 2` links and crossings. -/
theorem latency_exact (hr : cfg.Routable) (hocc : cfg.localOcc ≤ 32700) (hfree : cfg.congestionFree = false)
    (hnew : cfg.traffic c = some s) (has : ∀ a ∈ as, Accepted cfg a) (hrun : run Traffic.step s as = some t) :
    ∀ f ∈ t.messages, ¬f.msg.Same → ∀ τ, f.received = some τ →
      f.launchTime + cfg.addFixDelay ≤ f.start ∧
        f.hops.length = cfg.hops f.msg.srcRouterID f.msg.dstRouterID ∧
        τ = f.start + waited f.hops + cfg.hopLat *
          ((cfg.hops f.msg.srcRouterID f.msg.dstRouterID + 1) * cfg.hops f.msg.srcRouterID f.msg.dstRouterID / 2) := by
  obtain ⟨A, -, ht⟩ := Tracked.of_run hr hocc hfree hnew has hrun
  intro f hf hne τ hreceived
  obtain ⟨hon, hstart⟩ := (ht.history f hf).other hne
  have hcame : Came cfg A f.msg f.start f.hops f.msg.dstRouterID τ := by
    rw [Flight.On] at hon
    cases hevent : f.event with
    | forwardMsg router =>
      rw [hevent] at hon
      rw [hon.1] at hreceived
      cases hreceived
    | receiveMsg router =>
      rw [hevent] at hon
      exact hon.elim
    | notifyMsg router =>
      rw [hevent] at hon
      obtain ⟨τ₁, -, hτ₁, hcame⟩ := hon
      obtain rfl : τ = τ₁ := Option.some.inj (hreceived.symm.trans hτ₁)
      exact hcame
  have hself : cfg.hops f.msg.dstRouterID f.msg.dstRouterID = 0 := cfg.descends.self _
  have hlength := hcame.length_eq
  have htime := hcame.time_eq
  rw [hself] at hlength htime
  exact ⟨hstart, hlength, by omega⟩

theorem latency_exact_pair : ∃ s t, fixedRing.traffic 0 = some s ∧ run Traffic.step s pairActs = some t ∧
    ∃ f ∈ t.messages, f.received = some 6 ∧ f.hops.length = 2 ∧ 6 = f.start + waited f.hops + fixedRing.hopLat * 3 := by
  obtain ⟨s, t, hs, ht, f, hf, -, -, ⟨⟨hsrc, hdst, -⟩, hreceived⟩, -⟩ := exists_pair
  have hother : ¬f.msg.Same := by simp [Message.Same, hsrc, hdst]
  have hexact := (latency_exact routable_fixedRing (by decide) rfl hs accepted_pairActs ht f hf hother
    6 hreceived).2
  rw [hsrc, hdst] at hexact
  exact ⟨s, t, hs, ht, f, hf, hreceived, hexact⟩

end Results

end Esesc.Net
