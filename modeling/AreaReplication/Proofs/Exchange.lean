import AreaReplication.Proofs.Grounding

/-!
# A session and its client

Messages reach the client in sending order, any of them lost on the way. The client acknowledges
what it received; its acknowledgments are lost, delayed, doubled and reordered at will. What the
client got of such an exchange is a `Transcript`: which versions each state rests on, and that
echoes never run ahead of them.
-/
namespace AreaReplication

structure Exchange where
  session : Session
  events : List Event := []
  pace : Pace := {}
  /-- Messages that were sent and are neither received nor lost, in sending order. -/
  inFlight : List Message := []
  received : List Message := []

namespace Exchange

def perform (x : Exchange) (link : Link) (call : Session.Call) : Exchange where
  session := (x.session.run link call).value.2
  events := x.events ++ (x.session.run link call).events
  pace := x.pace.after call
  inFlight := x.inFlight ++ messagesSent (x.session.run link call).events
  received := x.received

inductive Step : Exchange → Exchange → Prop where
  | call (x : Exchange) (link : Link) {call : Session.Call} (paced : x.pace.Allows call)
      (quiet : ∀ ack, call ≠ .post ack) : Step x (x.perform link call)
  | arrive (x : Exchange) {message : Message} {rest : List Message}
      (first : x.inFlight = message :: rest) :
      Step x { x with inFlight := rest, received := x.received ++ [message] }
  | lose (x : Exchange) {message : Message} {rest : List Message}
      (first : x.inFlight = message :: rest) : Step x { x with inFlight := rest }
  | acknowledge (x : Exchange) (ack : Ack) (got : ∃ message ∈ x.received, message.id = ack.id) :
      Step x { x with session := x.session.post ack }

inductive Reachable (grid : Grid) (settings : Settings) : Exchange → Prop where
  | initial : Reachable grid settings { session := .new grid settings }
  | step {x y : Exchange} : Reachable grid settings x → Step x y → Reachable grid settings y

/-- Nothing has happened, and zones have edges of one. -/
def begun : Exchange := { session := .new ⟨⟨.one, .one, .one⟩⟩ {} }

variable {grid : Grid} {settings : Settings} {x y : Exchange}

def deliver (x : Exchange) : Exchange :=
  match x.inFlight with
  | [] => x
  | message :: rest => { x with inFlight := rest, received := x.received ++ [message] }

def lose (x : Exchange) : Exchange := { x with inFlight := x.inFlight.tail }

def acknowledge (x : Exchange) (ack : Ack) : Exchange := { x with session := x.session.post ack }

/-- The given entities are at the origin during a tick that ends its block and meets no trouble. -/
def tick (x : Exchange) (time : Time) (entities : List EntityId) : Exchange :=
  ((x.perform (Line.link {}) (Session.sightings time entities)).perform (Line.link {})
    (.endFrame time)).perform (Line.link {}) .endBlock

@[simp] theorem deliver_pace (x : Exchange) : x.deliver.pace = x.pace := by
  unfold deliver
  split <;> rfl

@[simp] theorem lose_pace (x : Exchange) : x.lose.pace = x.pace := rfl

@[simp] theorem acknowledge_pace (x : Exchange) (ack : Ack) : (x.acknowledge ack).pace = x.pace :=
  rfl

@[simp] theorem tick_pace (x : Exchange) (time : Time) (entities : List EntityId) :
    (x.tick time entities).pace = { floor := time.toNat + 1 } := rfl

theorem Reachable.deliver (h : Reachable grid settings x) : Reachable grid settings x.deliver := by
  unfold Exchange.deliver
  split
  · exact h
  · rename_i message rest first
    exact h.step (.arrive x first)

theorem Reachable.lose (h : Reachable grid settings x) : Reachable grid settings x.lose := by
  cases first : x.inFlight with
  | nil =>
    have same : x.lose = x := by rw [Exchange.lose, first, List.tail_nil, ← first]
    rwa [same]
  | cons message rest =>
    have lost := h.step (.lose x first)
    rwa [Exchange.lose, first, List.tail_cons]

theorem Reachable.acknowledge (h : Reachable grid settings x) (ack : Ack)
    (got : ack.id ∈ x.received.map Message.id) : Reachable grid settings (x.acknowledge ack) :=
  h.step (.acknowledge x ack (List.mem_map.1 got))

theorem Reachable.tick (h : Reachable grid settings x) (time : Time) (entities : List EntityId)
    (admitted : x.pace.Admits time) : Reachable grid settings (x.tick time entities) := by
  have perform : ∀ {x : Exchange}, Reachable grid settings x → ∀ call, x.pace.Allows call →
      (∀ ack, call ≠ .post ack) → Reachable grid settings (x.perform (Line.link {}) call) :=
    fun h _ paced quiet => h.step (.call _ (Line.link {}) paced quiet)
  have begun : (x.pace.after (Session.sightings time entities)).Admits time :=
    ⟨admitted.1, fun tick ht => Option.some.inj ht⟩
  have sighted := perform h (Session.sightings time entities) admitted nofun
  have ended := perform sighted (.endFrame time) begun nofun
  exact perform ended .endBlock trivial nofun

structure Invariant (x : Exchange) : Prop where
  tidy : x.session.core.Tidy
  steady : Steady x.pace.floor x.pace.ceiling x.events x.session.core
  posted : ∀ ack ∈ x.session.intake.queue, ∃ message ∈ x.received, message.id = ack.id
  order : (x.received ++ x.inFlight).Sublist (messagesSent x.events)
  grounded : Few x.events → Grounded x.received x.events x.session.core

theorem Invariant.inside (h : Invariant x) :
    ∀ message ∈ x.received, message ∈ messagesSent x.events := fun _ hm =>
  h.order.subset (List.mem_append_left _ hm)

theorem grounded_keeps (received : List Message) :
    Pace.Keeps (fun id => ∃ message ∈ received, message.id = id) fun shown current events core =>
      Steady shown current events core ∧
        (∀ message ∈ received, message ∈ messagesSent events) ∧
        (Few events → Grounded received events core) where
  grow := fun hs hc h => ⟨(Steady.keeps fun _ => True).grow hs hc h.1, h.2⟩
  input := fun hs hc tidy h step => by
    obtain ⟨steady, inside, grounded⟩ := h
    refine ⟨(Steady.keeps fun _ => True).input hs hc tidy steady step, fun message hm => ?_,
      fun few => (grounded few.of_append).input tidy step⟩
    rw [messagesSent_append]
    exact List.mem_append_left _ (inside message hm)
  output := fun posted tidy h step => by
    obtain ⟨steady, inside, grounded⟩ := h
    refine ⟨(Steady.keeps fun _ => True).output (fun _ _ => trivial) tidy steady step,
      fun message hm => ?_, fun few => ?_⟩
    · rw [messagesSent_append]
      exact List.mem_append_left _ (inside message hm)
    · have few' := few.of_append
      exact (grounded few').output posted tidy steady.pacing (steady.ledger few') inside few step
  boxed := fun tidy h step => by
    obtain ⟨steady, inside, grounded⟩ := h
    refine ⟨(Steady.keeps fun _ => True).boxed tidy steady step, fun message hm => ?_,
      fun few => ?_⟩
    · rw [messagesSent_append]
      exact List.mem_append_left _ (inside message hm)
    · obtain ⟨box, step, rfl⟩ := step
      exact (grounded few.of_append).box_step (steady.ledger few.of_append) few step

theorem initial_invariant (grid : Grid) (settings : Settings) :
    Invariant { session := .new grid settings } where
  tidy := Session.new_tidy grid settings
  steady := .of_new grid settings _ _
  posted := fun _ ha => by cases ha
  order := List.Sublist.refl _
  grounded := fun _ => .of_new grid settings

theorem step_preserves_invariant (h : Invariant x) (step : Step x y) :
    Invariant y := by
  cases step with
  | @call link call paced quiet =>
    obtain ⟨steady, _, grounded⟩ := (grounded_keeps x.received).run link paced h.posted h.tidy
      ⟨h.steady, h.inside, h.grounded⟩
    refine ⟨Session.run_tidy call h.tidy, steady, fun ack ha => ?_, ?_, grounded⟩
    · rcases Session.run_queue link x.session ha with ha | hc
      · exact h.posted ack ha
      · exact absurd hc (quiet ack)
    · simp only [perform, messagesSent_append, ← List.append_assoc]
      exact h.order.append (List.Sublist.refl _)
  | @arrive message rest first =>
    have more : ∀ other ∈ x.received, other ∈ x.received ++ [message] :=
      fun other ho => List.mem_append_left _ ho
    refine ⟨h.tidy, h.steady, fun ack ha => ?_, ?_, fun few => (h.grounded few).arrive more⟩
    · obtain ⟨other, ho, hid⟩ := h.posted ack ha
      exact ⟨other, more other ho, hid⟩
    · have order := h.order
      rw [first] at order
      simpa using order
  | @lose message rest first =>
    refine ⟨h.tidy, h.steady, h.posted, ?_, h.grounded⟩
    have order := h.order
    rw [first] at order
    exact ((List.sublist_cons_self message rest).append_left x.received).trans order
  | acknowledge ack got =>
    refine ⟨⟨h.tidy.keyed, h.tidy.ordered, h.tidy.names, h.tidy.tracked⟩, h.steady,
      fun other ho => ?_, h.order, h.grounded⟩
    rcases List.mem_append.1 ho with ho | ho
    · exact h.posted other ho
    · rw [List.mem_singleton.1 ho]
      exact got

theorem reachable_invariant (h : Reachable grid settings x) :
    Invariant x := by
  induction h with
  | initial => exact initial_invariant grid settings
  | step _ step ih => exact step_preserves_invariant ih step

end Exchange

/-- What the messages that a client received, in order, say of each other and of the objects. -/
structure Transcript (events : List Event) (table : ReplicaTable) (received : List Message) :
    Prop where
  ascending : received.Pairwise fun earlier later => earlier.id < later.id
  rests : ∀ message ∈ received, ∀ state ∈ message.states, ∀ base, state.baseline = some base →
    Rests received message.id state.netId base
  covered : ∀ message ∈ received, ∀ next ∈ received, message.id ≤ next.id →
    ∀ acked ∈ message.echoed, ∀ carrier ∈ received, carrier.id = acked →
      ∀ carried ∈ carrier.states, ∀ state ∈ next.states, state.netId = carried.netId →
        ∀ base, state.baseline = some base → carried.version ≤ base
  written : ∀ message ∈ received, ∀ state ∈ message.states, ∃ replica : Replica,
    Shows events state.netId replica.current ∧ replica.delta = state ∧
      ∀ base, replica.baseline = some base → Shows events state.netId base
  functional : ∀ id a b, Known events table id a → Known events table id b →
    a.version = b.version → a = b

/-- A received message whose echo has arrived carried the object at a later version. -/
def Outdated (done : List Message) (echoes : List MessageId) (id : NetId) (version : Version) :
    Prop :=
  ∃ carrier ∈ done, carrier.id ∈ echoes ∧
    ∃ carried ∈ carrier.states, carried.netId = id ∧ version < carried.version

namespace Outdated

variable {done : List Message} {echoes : List MessageId} {id : NetId} {version : Version}

theorem echo (h : Outdated done echoes id version) (acked : MessageId) :
    Outdated done (echoes ++ [acked]) id version := by
  obtain ⟨carrier, hc, hid, carried⟩ := h
  exact ⟨carrier, hc, List.mem_append_left _ hid, carried⟩

theorem arrive (h : Outdated done echoes id version) (message : Message) :
    Outdated (done ++ [message]) echoes id version := by
  obtain ⟨carrier, hc, carried⟩ := h
  exact ⟨carrier, List.mem_append_left _ hc, carried⟩

end Outdated

/-- What is echoed up to a message is echoed by it or by one before it. -/
theorem exists_echoing {done : List Message} {message : Message} {acked : MessageId}
    (h : acked ∈ done.flatMap Message.echoed ++ message.echoed) :
    ∃ echoing ∈ done ++ [message], acked ∈ echoing.echoed := by
  rw [← List.flatMap_singleton (f := Message.echoed) (x := message), ← List.flatMap_append] at h
  exact List.mem_flatMap.1 h

namespace Transcript

variable {events : List Event} {table : ReplicaTable} {received done rest : List Message}
  {message : Message} {state : Delta} {base : Version}

/-- What a state of a message builds on came with an earlier message. -/
theorem base_carried (h : Transcript events table received)
    (split : received = done ++ message :: rest) (hs : state ∈ message.states)
    (hb : state.baseline = some base) :
    ∃ carrier ∈ done, ∃ carried ∈ carrier.states, carried.key = (state.netId, base) := by
  have hm : message ∈ received := by
    rw [split]
    simp
  obtain ⟨carrier, hc, lt, carried⟩ := h.rests message hm state hs base hb
  refine ⟨carrier, ?_, carried⟩
  have ascending := h.ascending
  rw [split, List.pairwise_append, List.pairwise_cons] at ascending
  rw [split] at hc
  rcases List.mem_append.1 hc with hc | hc
  · exact hc
  · rcases List.mem_cons.1 hc with rfl | hc
    · exact absurd lt (UInt64.lt_irrefl _)
    · exact absurd (UInt64.lt_trans lt (ascending.2.1.1 carrier hc)) (UInt64.lt_irrefl _)

/-- No echo up to a message makes what its states build on outdated. -/
theorem base_not_outdated (h : Transcript events table received)
    (split : received = done ++ message :: rest) (hs : state ∈ message.states)
    (hb : state.baseline = some base) {echoes : List MessageId}
    (he : ∀ acked ∈ echoes, ∃ echoing ∈ done ++ [message], acked ∈ echoing.echoed) :
    ¬ Outdated done echoes state.netId base := by
  rintro ⟨carrier, hc, hid, carried, hcarried, hn, lt⟩
  obtain ⟨echoing, hechoing, hacked⟩ := he _ hid
  have ascending := h.ascending
  rw [split, List.pairwise_append, List.pairwise_cons] at ascending
  have inside : ∀ other ∈ done ++ [message], other ∈ received ∧ other.id ≤ message.id := by
    intro other ho
    rw [split]
    rcases List.mem_append.1 ho with ho | ho
    · exact ⟨List.mem_append_left _ ho,
        UInt64.le_of_lt (ascending.2.2 other ho message List.mem_cons_self)⟩
    · obtain rfl := List.mem_singleton.1 ho
      exact ⟨by simp, UInt64.le_rfl⟩
  have hle := h.covered echoing (inside echoing hechoing).1 message (inside message (by simp)).1
    (inside echoing hechoing).2 _ hacked carrier (inside carrier (List.mem_append_left _ hc)).1 rfl
    carried hcarried state hs hn.symm base hb
  exact absurd (UInt64.lt_of_lt_of_le lt hle) (UInt64.lt_irrefl _)

end Transcript

theorem Exchange.transcript_of_reachable {grid : Grid} {settings : Settings} {x : Exchange}
    (h : Exchange.Reachable grid settings x) (few : Few x.events) :
    Transcript x.events x.session.table x.received := by
  have inv := Exchange.reachable_invariant h
  have ledger := inv.steady.ledger few
  have safe := inv.steady.echoes few
  have grounded := inv.grounded few
  constructor
  · exact ledger.ascending.sublist ((List.sublist_append_left _ _).trans inv.order)
  · exact fun message hm => grounded.sent message (inv.inside message hm)
  · intro message hm next hn hle acked ha carrier hc hid carried hs state hstate hn' base hb
    exact safe.later message (inv.inside message hm) next (inv.inside next hn) hle acked ha
      carried.netId carried.version ⟨carrier, inv.inside carrier hc, hid, carried, hs, rfl⟩
      state hstate hn' base hb
  · intro message hm state hs
    obtain ⟨entity, shown, hq⟩ := ledger.sent_queued message (inv.inside message hm) state hs
    obtain ⟨replica, rfl, hd, hb⟩ := grounded.written _ _ _ _ hq
    exact ⟨replica, ⟨_, _, _, hq, rfl⟩, hd, hb⟩
  · exact inv.steady.pacing.functional

end AreaReplication
