import AreaReplication.Proofs.Exchange
import AreaReplication.Sim.Client

/-!
# A client that keeps every version it may need

The reference client forgets a version only when an echo tells it that the server builds on nothing
older than what an acknowledged message carried. It never meets a state that builds on a version it
does not hold, and what it holds of a version looks as the server had it.
-/
namespace AreaReplication

namespace Binary64

theorem same_trans {a b c : Binary64} (h : a.same b) (k : b.same c) : a.same c := by
  simp only [same, Bool.and_eq_true, Bool.or_eq_true, beq_iff_eq] at h k ⊢
  obtain ⟨⟨ha, _⟩, hab⟩ := h
  obtain ⟨⟨_, hc⟩, hbc⟩ := k
  refine ⟨⟨ha, hc⟩, ?_⟩
  rcases hab with rfl | hab
  · exact hbc
  · rcases hbc with rfl | hbc
    · exact .inr hab
    · exact .inr ⟨hab.1, hbc.2⟩

end Binary64

theorem Vec3.same_trans {a b c : Vec3} (h : a.same b) (k : b.same c) : a.same c := by
  simp only [same, Bool.and_eq_true] at h k ⊢
  exact ⟨⟨Binary64.same_trans h.1.1 k.1.1, Binary64.same_trans h.1.2 k.1.2⟩,
    Binary64.same_trans h.2 k.2⟩

theorem Quat.same_trans {a b c : Quat} (h : a.same b) (k : b.same c) : a.same c := by
  simp only [same, Bool.and_eq_true] at h k ⊢
  exact ⟨⟨⟨Binary64.same_trans h.1.1.1 k.1.1.1, Binary64.same_trans h.1.1.2 k.1.1.2⟩,
    Binary64.same_trans h.1.2 k.1.2⟩, Binary64.same_trans h.2 k.2⟩

namespace Sim

/-- The view is the snapshot, up to the sign of zeros. -/
structure View.Agrees (view : View) (snapshot : Snapshot) : Prop where
  zone : view.zoneId = snapshot.zoneId
  position : view.position = snapshot.position ∨ snapshot.position.same view.position
  rotation : view.rotation = snapshot.rotation ∨ snapshot.rotation.same view.rotation

/-- A state put over a view of its baseline shows the object as it is. -/
theorem View.Agrees.overlay {replica : Replica} {view : View}
    (h : ∀ base, replica.baseline = some base → view.Agrees base) :
    (Client.overlay replica.delta view).Agrees replica.current := by
  cases hb : replica.baseline with
  | none =>
    simp only [Client.overlay, Replica.delta, hb, Option.getD_some]
    exact ⟨rfl, .inl rfl, .inl rfl⟩
  | some base =>
    obtain ⟨zone, position, rotation⟩ := h base hb
    simp only [Client.overlay, Replica.delta, hb]
    constructor
    · by_cases hz : replica.current.zoneId = base.zoneId
      · simp [hz, zone]
      · simp [hz]
    · cases hs : replica.current.position.same base.position with
      | false => exact .inl rfl
      | true =>
        rcases position with he | position
        · exact .inr (by simpa [he] using hs)
        · exact .inr (Vec3.same_trans hs position)
    · cases hs : replica.current.rotation.same base.rotation with
      | false => exact .inl rfl
      | true =>
        rcases rotation with he | rotation
        · exact .inr (by simpa [he] using hs)
        · exact .inr (Quat.same_trans hs rotation)

end Sim

/-- The client that the protocol asks for. -/
structure ReferenceClient where
  /-- What is held of each object, under its versions. -/
  views : NetId → Version → Option Sim.View := fun _ _ => none
  /-- What each received message carried, until its acknowledgment is echoed. -/
  carried : MessageId → Option (List (NetId × Version)) := fun _ => none
  /-- How many states built on a version that was not held. -/
  misses : Nat := 0

namespace ReferenceClient

def prune (client : ReferenceClient) (id : NetId) (version : Version) : ReferenceClient :=
  { client with views := fun other held =>
      if other = id ∧ held < version then none else client.views other held }

def release (client : ReferenceClient) (echoed : MessageId) : ReferenceClient :=
  match client.carried echoed with
  | none => client
  | some states =>
    states.foldl (fun client state => client.prune state.1 state.2) { client with
      carried := fun id => if id = echoed then none else client.carried id }

def store (client : ReferenceClient) (state : Delta) (view : Sim.View) : ReferenceClient :=
  { client with views := fun id version =>
      if (id, version) = state.key then some view else client.views id version }

def apply (client : ReferenceClient) (state : Delta) : ReferenceClient :=
  match state.baseline with
  | none => client.store state (Sim.Client.overlay state {})
  | some base =>
    match client.views state.netId base with
    | some view => client.store state (Sim.Client.overlay state view)
    | none => { client with misses := client.misses + 1 }

/-- Takes over a message: first its echoes, then its states, which are remembered. -/
def receive (client : ReferenceClient) (message : Message) : ReferenceClient :=
  let client := message.states.foldl apply (message.echoed.foldl release client)
  { client with carried := fun id =>
      if id = message.id then some (message.states.map Delta.key) else client.carried id }

variable {client : ReferenceClient} {state : Delta} {id : NetId} {version : Version}

/-- Pruning forgets versions only because of later ones among the given. -/
theorem foldl_prune (states : List (NetId × Version)) (client : ReferenceClient) :
    let pruned := states.foldl (fun client state => client.prune state.1 state.2) client
    pruned.carried = client.carried ∧ pruned.misses = client.misses ∧
      ∀ id version, pruned.views id version = client.views id version ∨
        (pruned.views id version = none ∧ ∃ later, (id, later) ∈ states ∧ version < later) := by
  induction states generalizing client with
  | nil => exact ⟨rfl, rfl, fun _ _ => .inl rfl⟩
  | cons first rest ih =>
    obtain ⟨carried, misses, views⟩ := ih (client.prune first.1 first.2)
    refine ⟨carried, misses, fun id version => ?_⟩
    simp only [List.foldl_cons]
    rcases views id version with hv | ⟨hv, later, hm, lt⟩
    · by_cases hp : id = first.1 ∧ version < first.2
      · refine .inr ⟨by rw [hv]; simp [prune, hp], first.2, ?_, hp.2⟩
        rw [hp.1]
        exact List.mem_cons_self
      · exact .inl (by rw [hv]; simp [prune, hp])
    · exact .inr ⟨hv, later, List.mem_cons_of_mem _ hm, lt⟩

theorem store_views (view : Sim.View) : (client.store state view).views id version =
    if (id, version) = state.key then some view else client.views id version :=
  rfl

theorem store_self (view : Sim.View) :
    (client.store state view).views state.netId state.version = some view :=
  if_pos rfl

/-- A state is stored, or what it builds on is missed. -/
theorem apply_cases (client : ReferenceClient) (state : Delta) :
    (∃ base, (∀ version, state.baseline = some version →
        client.views state.netId version = some base) ∧
        client.apply state = client.store state (Sim.Client.overlay state base)) ∨
      (∃ version, state.baseline = some version ∧ client.views state.netId version = none ∧
        client.apply state = { client with misses := client.misses + 1 }) := by
  cases hb : state.baseline with
  | none => exact .inl ⟨{}, by simp, by simp only [apply, hb]⟩
  | some version =>
    cases hv : client.views state.netId version with
    | none => exact .inr ⟨version, rfl, hv, by simp only [apply, hb, hv]⟩
    | some base =>
      refine .inl ⟨base, fun other ho => ?_, by simp only [apply, hb, hv]⟩
      rw [← Option.some.inj ho]
      exact hv

/-- Taking over states forgets nothing, and what is not missed is held in the end. -/
theorem foldl_apply (states : List Delta) (client : ReferenceClient) :
    let applied := states.foldl apply client
    client.misses ≤ applied.misses ∧
      (∀ id version, (client.views id version).isSome → (applied.views id version).isSome) ∧
      (applied.misses = client.misses →
        ∀ state ∈ states, (applied.views state.netId state.version).isSome) := by
  induction states generalizing client with
  | nil => exact ⟨Nat.le_refl _, fun _ _ h => h, fun _ _ hm => by cases hm⟩
  | cons state rest ih =>
    obtain ⟨misses, views, stored⟩ := ih (client.apply state)
    simp only [List.foldl_cons]
    rcases client.apply_cases state with ⟨base, _, he⟩ | ⟨version, _, _, he⟩
    · have kept : ∀ id version, (client.views id version).isSome →
          ((client.apply state).views id version).isSome := by
        intro id version hv
        rw [he, store_views]
        split_ifs
        · rfl
        · exact hv
      have counted : (client.apply state).misses = client.misses := by
        rw [he]
        rfl
      refine ⟨counted ▸ misses, fun id version hv => views id version (kept id version hv), ?_⟩
      intro same other ho
      rcases List.mem_cons.1 ho with rfl | ho
      · refine views _ _ ?_
        rw [he, store_self]
        rfl
      · exact stored (same.trans counted.symm) other ho
    · have counted : (client.apply state).misses = client.misses + 1 := by rw [he]
      have kept : (client.apply state).views = client.views := by rw [he]
      rw [counted] at misses
      rw [kept] at views
      exact ⟨Nat.le_of_succ_le misses, views, fun same => by omega⟩

end ReferenceClient

/-- What is true of the client once it has received the messages `done`, some echoes and states. -/
structure Faithful (events : List Event) (table : ReplicaTable) (done : List Message)
    (echoes : List MessageId) (applied : List Delta) (client : ReferenceClient) : Prop where
  records : ∀ acked states, client.carried acked = some states →
    ∃ carrier ∈ done, carrier.id = acked ∧ states = carrier.states.map Delta.key
  shown : ∀ id version view, client.views id version = some view →
    (∃ snapshot, Shows events id snapshot ∧ snapshot.version = version) ∧
      ∀ snapshot, Known events table id snapshot → snapshot.version = version → view.Agrees snapshot
  held : ∀ state ∈ applied, (client.views state.netId state.version).isSome ∨
    Outdated done echoes state.netId state.version
  misses : client.misses = 0

namespace Faithful

variable {events : List Event} {table : ReplicaTable} {received done rest : List Message}
  {echoes : List MessageId} {applied : List Delta} {client : ReferenceClient}

/-- An echo makes only outdated versions go. -/
theorem release (h : Faithful events table done echoes applied client) (acked : MessageId) :
    Faithful events table done (echoes ++ [acked]) applied (client.release acked) := by
  unfold ReferenceClient.release
  cases hc : client.carried acked with
  | none =>
    exact ⟨h.records, h.shown, fun state hs => (h.held state hs).imp_right (·.echo acked), h.misses⟩
  | some states =>
    obtain ⟨carrier, hcarrier, hid, rfl⟩ := h.records acked states hc
    obtain ⟨carried, misses, views⟩ := ReferenceClient.foldl_prune (carrier.states.map Delta.key)
      { client with carried := fun id => if id = acked then none else client.carried id }
    simp only
    constructor
    · intro other states ho
      rw [carried] at ho
      simp only at ho
      split_ifs at ho
      exact h.records other states ho
    · intro id version view hv
      rcases views id version with same | ⟨gone, _⟩
      · rw [same] at hv
        exact h.shown id version view hv
      · rw [gone] at hv
        cases hv
    · intro state hs
      rcases views state.netId state.version with same | ⟨_, version, hm, lt⟩
      · rw [same]
        exact (h.held state hs).imp_right (·.echo acked)
      · obtain ⟨other, ho, hk⟩ := List.mem_map.1 hm
        obtain ⟨hn, rfl⟩ := Prod.mk.inj hk
        exact .inr ⟨carrier, hcarrier, by simp [hid], other, ho, hn, lt⟩
    · rw [misses]
      exact h.misses

theorem releases (h : Faithful events table done echoes applied client) (list : List MessageId) :
    Faithful events table done (echoes ++ list) applied
      (list.foldl ReferenceClient.release client) := by
  induction list generalizing echoes client with
  | nil => rwa [List.append_nil]
  | cons acked rest ih =>
    have onward := ih (h.release acked)
    rwa [List.append_assoc] at onward

/-- A state whose baseline is held is stored as the server showed it. -/
theorem apply (h : Faithful events table done echoes applied client)
    (transcript : Transcript events table received) {message : Message}
    (hm : message ∈ received) {state : Delta} (hs : state ∈ message.states)
    (based : ∀ base, state.baseline = some base → (client.views state.netId base).isSome) :
    Faithful events table done echoes (applied ++ [state]) (client.apply state) := by
  obtain ⟨replica, hshown, rfl, hbase⟩ := transcript.written message hm state hs
  rw [Replica.delta_netId] at hshown hbase
  rcases client.apply_cases replica.delta with ⟨base, hheld, he⟩ | ⟨version, hb, hv, _⟩
  · have agrees : (Sim.Client.overlay replica.delta base).Agrees replica.current := by
      refine Sim.View.Agrees.overlay fun snapshot hb => ?_
      have hv := hheld snapshot.version (by
        rw [Replica.delta_baseline, Replica.baselineVersion, hb, Option.map_some])
      rw [Replica.delta_netId] at hv
      exact (h.shown _ _ _ hv).2 snapshot (.inl (hbase snapshot hb)) rfl
    rw [he]
    constructor
    · exact h.records
    · intro id version view hv
      rw [ReferenceClient.store_views] at hv
      split_ifs at hv with hk
      · obtain rfl := Option.some.inj hv
        obtain ⟨rfl, rfl⟩ := Prod.mk.inj hk
        rw [Replica.delta_netId, Replica.delta_version]
        refine ⟨⟨_, hshown, rfl⟩, fun snapshot hknown hversion => ?_⟩
        rw [transcript.functional _ snapshot replica.current hknown (.inl hshown) hversion]
        exact agrees
      · exact h.shown id version view hv
    · intro other ho
      rw [ReferenceClient.store_views]
      rcases List.mem_append.1 ho with ho | ho
      · split_ifs
        · exact .inl rfl
        · exact h.held other ho
      · obtain rfl := List.mem_singleton.1 ho
        exact .inl (if_pos rfl ▸ rfl)
    · exact h.misses
  · have := based version hb
    rw [hv] at this
    cases this

/-- Every state of the next message finds what it builds on. -/
theorem applies (transcript : Transcript events table received) {message : Message}
    (split : received = done ++ message :: rest)
    (heard : ∀ acked ∈ echoes, ∃ echoing ∈ done ++ [message], acked ∈ echoing.echoed)
    (complete : ∀ carrier ∈ done, ∀ carried ∈ carrier.states, carried ∈ applied)
    (h : Faithful events table done echoes applied client) (states : List Delta)
    (hs : ∀ state ∈ states, state ∈ message.states) :
    Faithful events table done echoes (applied ++ states)
      (states.foldl ReferenceClient.apply client) := by
  have hm : message ∈ received := by
    rw [split]
    simp
  induction states generalizing applied client with
  | nil => rwa [List.append_nil]
  | cons state rest ih =>
    have based : ∀ base, state.baseline = some base → (client.views state.netId base).isSome := by
      intro base hb
      obtain ⟨carrier, hc, carried, hcarried, hk⟩ :=
        transcript.base_carried split (hs state (by simp)) hb
      obtain ⟨hn, rfl⟩ := Prod.mk.inj hk
      rcases h.held carried (complete carrier hc carried hcarried) with hv | outdated
      · exact hn ▸ hv
      · exact absurd (hn ▸ outdated)
          (transcript.base_not_outdated split (hs state (by simp)) hb heard)
    have onward := ih (fun carrier hc carried hcarried => List.mem_append_left _
      (complete carrier hc carried hcarried)) (h.apply transcript hm (hs state (by simp)) based)
      (fun other ho => hs other (by simp [ho]))
    rwa [List.append_assoc] at onward

theorem receive (transcript : Transcript events table received) {message : Message}
    (split : received = done ++ message :: rest)
    (h : Faithful events table done (done.flatMap Message.echoed) (done.flatMap Message.states)
      client) :
    Faithful events table (done ++ [message]) ((done ++ [message]).flatMap Message.echoed)
      ((done ++ [message]).flatMap Message.states) (client.receive message) := by
  have applied := applies transcript split (fun _ => exists_echoing)
    (fun carrier hc carried hcarried => List.mem_flatMap.2 ⟨carrier, hc, hcarried⟩)
    (h.releases message.echoed) message.states (fun _ hs => hs)
  rw [List.flatMap_append, List.flatMap_append, List.flatMap_singleton, List.flatMap_singleton]
  constructor
  · intro acked states ha
    simp only [ReferenceClient.receive] at ha
    split_ifs at ha with hid
    · exact ⟨message, by simp, hid.symm, (Option.some.inj ha).symm⟩
    · obtain ⟨carrier, hc, hcid, hstates⟩ := applied.records acked states ha
      exact ⟨carrier, List.mem_append_left _ hc, hcid, hstates⟩
  · exact applied.shown
  · intro state hs
    exact (applied.held state hs).imp_right (·.arrive message)
  · exact applied.misses

theorem of_transcript (transcript : Transcript events table received) :
    Faithful events table received (received.flatMap Message.echoed)
      (received.flatMap Message.states) (received.foldl ReferenceClient.receive {}) := by
  have prefixes : ∀ rest done client, received = done ++ rest →
      Faithful events table done (done.flatMap Message.echoed) (done.flatMap Message.states)
        client →
      Faithful events table received (received.flatMap Message.echoed)
        (received.flatMap Message.states) (rest.foldl ReferenceClient.receive client) := by
    intro rest
    induction rest with
    | nil =>
      intro done client split h
      rw [List.append_nil] at split
      exact split ▸ h
    | cons message rest ih =>
      intro done client split h
      exact ih (done ++ [message]) (client.receive message) (by simpa using split)
        (h.receive transcript split)
  exact prefixes received [] {} rfl ⟨by simp, by simp, by simp, rfl⟩

end Faithful

namespace Exchange

/-- Whatever is lost, late, doubled or reordered, the reference client never misses a baseline, all
that it holds of a version is what the server showed and keeps of it, and it holds everything that
the last message carried. -/
theorem reference_client_in_step {grid : Grid} {settings : Settings} {x : Exchange}
    (h : Reachable grid settings x) (few : Few x.events) :
    let client := x.received.foldl ReferenceClient.receive {}
    client.misses = 0 ∧
      (∀ id version view, client.views id version = some view →
        (∃ snapshot, Shows x.events id snapshot ∧ snapshot.version = version) ∧
          ∀ snapshot, Known x.events x.session.table id snapshot → snapshot.version = version →
            view.Agrees snapshot) ∧
      ∀ earlier message, x.received = earlier ++ [message] → ∀ state ∈ message.states,
        (client.views state.netId state.version).isSome := by
  intro client
  have transcript := transcript_of_reachable h few
  have faithful := Faithful.of_transcript transcript
  refine ⟨faithful.misses, faithful.shown, fun earlier message split state hs => ?_⟩
  have last : client = (earlier.foldl ReferenceClient.receive {}).receive message := by
    rw [show client = x.received.foldl ReferenceClient.receive {} from rfl, split,
      List.foldl_append]
    rfl
  obtain ⟨misses, _, stored⟩ := ReferenceClient.foldl_apply message.states
    (message.echoed.foldl ReferenceClient.release (earlier.foldl ReferenceClient.receive {}))
  have none : (message.states.foldl ReferenceClient.apply (message.echoed.foldl
      ReferenceClient.release (earlier.foldl ReferenceClient.receive {}))).misses = 0 := by
    have := faithful.misses
    rwa [show x.received.foldl ReferenceClient.receive {} = _ from last] at this
  rw [last]
  exact stored (by omega) state hs

/-- Entity 7 is seen three times. The second message is lost, and the first is acknowledged twice
before the third. -/
def bridged : Exchange :=
  (((((begun.tick 1 [7]).deliver.tick 2 [7]).lose.acknowledge ⟨0, 0, 0⟩).acknowledge
    ⟨0, 0, 0⟩).tick 3 [7]).deliver

theorem bridged_reachable : Reachable ⟨⟨.one, .one, .one⟩⟩ {} bridged := by
  have got : (0 : MessageId) ∈ (begun.tick 1 [7]).deliver.received.map Message.id := by decide_cbv
  have h : Reachable ⟨⟨.one, .one, .one⟩⟩ {} (begun.tick 1 [7]).deliver :=
    (Reachable.initial.tick 1 [7] (by simp [Pace.Admits])).deliver
  have h := (h.tick 2 [7] (by simp [Pace.Admits])).lose
  have h := (h.acknowledge ⟨0, 0, 0⟩ got).acknowledge ⟨0, 0, 0⟩ got
  exact (h.tick 3 [7] (by simp [Pace.Admits])).deliver

set_option maxRecDepth 4000 in
theorem reference_client_in_step_bridged :
    bridged.received.map Message.states =
        [[Session.introduction], [{ netId := 1, version := 3, baseline := some 1 }]] ∧
      (bridged.received.foldl ReferenceClient.receive {}).misses = 0 ∧
      ((bridged.received.foldl ReferenceClient.receive {}).views 1 3).isSome := by
  have few : Few bridged.events := by decide_cbv
  have received : bridged.received =
      [{ id := 0, sentAt := 0, frames := [{ time := 1, states := [Session.introduction] }] }] ++
        [{ id := 2, sentAt := 0, echoed := [0], frames :=
            [{ time := 3, states := [{ netId := 1, version := 3, baseline := some 1 }] }] }] := by
    decide_cbv
  obtain ⟨misses, -, last⟩ := reference_client_in_step bridged_reachable few
  refine ⟨by rw [received]; rfl, misses, ?_⟩
  exact last _ _ received { netId := 1, version := 3, baseline := some 1 }
    (by simp [Message.states])

end Exchange

end AreaReplication
