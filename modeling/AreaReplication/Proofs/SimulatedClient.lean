import AreaReplication.Proofs.Exchange
import AreaReplication.Sim.Client

/-!
# When the simulated client misses a baseline

The simulated client drops all versions of an object when a complete state of it arrives, also those
that the server may still build on. It misses a baseline exactly when a state reaches back behind
such a complete state; forgetting by echoes alone does no harm.
-/
namespace AreaReplication

/-- The states bring the object at `version` and no complete state of the object after that. -/
def FreshIn (states : List Delta) (id : NetId) (version : Version) : Prop :=
  ∃ before state since, states = before ++ state :: since ∧ state.key = (id, version) ∧
    ∀ later ∈ since, later.netId = id → later.baseline ≠ none

/-- A state builds on a version that no state has brought since the last complete state of the
object. -/
def ReachesBack (states : List Delta) : Prop :=
  ∃ before state since base, states = before ++ state :: since ∧ state.baseline = some base ∧
    ¬ FreshIn before state.netId base

theorem freshIn_append {states : List Delta} {state : Delta} {id : NetId} {version : Version} :
    FreshIn (states ++ [state]) id version ↔ state.key = (id, version) ∨
      (FreshIn states id version ∧ (state.netId = id → state.baseline ≠ none)) := by
  constructor
  · rintro ⟨before, first, since, split, hk, hs⟩
    rcases List.eq_nil_or_concat since with rfl | ⟨since, last, rfl⟩
    · obtain ⟨-, rfl⟩ := List.append_inj' split rfl |>.imp_right List.singleton_inj.1
      exact .inl hk
    · rw [List.concat_eq_append, ← List.cons_append, ← List.append_assoc] at split
      obtain ⟨rfl, hlast⟩ := List.append_inj' split rfl
      obtain rfl := List.singleton_inj.1 hlast
      exact .inr ⟨⟨before, first, since, rfl, hk, fun later hl => hs later (by simp [hl])⟩,
        hs state (by simp)⟩
  · rintro (hk | ⟨⟨before, first, since, rfl, hk, hs⟩, hlast⟩)
    · exact ⟨states, state, [], rfl, hk, by simp⟩
    · refine ⟨before, first, since ++ [state], by simp, hk, fun later hl => ?_⟩
      rcases List.mem_append.1 hl with hl | hl
      · exact hs later hl
      · rw [List.mem_singleton.1 hl]
        exact hlast

theorem reachesBack_append {states : List Delta} {state : Delta} :
    ReachesBack (states ++ [state]) ↔ ReachesBack states ∨
      ∃ base, state.baseline = some base ∧ ¬ FreshIn states state.netId base := by
  constructor
  · rintro ⟨before, reaching, since, base, split, hb, hf⟩
    rcases List.eq_nil_or_concat since with rfl | ⟨since, last, rfl⟩
    · obtain ⟨rfl, hlast⟩ := List.append_inj' split rfl
      obtain rfl := List.singleton_inj.1 hlast
      exact .inr ⟨base, hb, hf⟩
    · rw [List.concat_eq_append, ← List.cons_append, ← List.append_assoc] at split
      obtain ⟨rfl, -⟩ := List.append_inj' split rfl
      exact .inl ⟨before, reaching, since, base, rfl, hb, hf⟩
  · rintro (⟨before, reaching, since, base, rfl, hb, hf⟩ | ⟨base, hb, hf⟩)
    · exact ⟨before, reaching, since ++ [state], base, by simp, hb, hf⟩
    · exact ⟨states, state, [], base, rfl, hb, hf⟩

theorem Ascending.key_mem_insert {α : Type} {version : Version} {entry : Version × α}
    {list : List (Version × α)} :
    (∃ a, (version, a) ∈ Ascending.insert (fun entry => entry.1) entry list) ↔
      version = entry.1 ∨ ∃ a, (version, a) ∈ list := by
  have ends : ∀ other : Version × α, (∃ a, (version, a) = other) ↔ version = other.1 := by
    intro other
    constructor
    · rintro ⟨a, rfl⟩
      rfl
    · rintro rfl
      exact ⟨other.2, rfl⟩
  induction list with
  | nil => simp only [Ascending.insert, List.mem_singleton, ends, List.not_mem_nil, exists_false,
      or_false]
  | cons first rest ih =>
    unfold Ascending.insert
    split_ifs with hlt hgt
    · simp only [List.mem_cons, exists_or, ih, ends]
      tauto
    · simp only [List.mem_cons, exists_or, ends]
    · have same : first.1 = entry.1 :=
        UInt64.le_antisymm (UInt64.not_lt.1 hgt) (UInt64.not_lt.1 hlt)
      simp only [List.mem_cons, exists_or, ends, same]
      tauto

namespace Sim.Client

def Holds (client : Client) (id : NetId) (version : Version) : Prop :=
  ∃ view, (version, view) ∈ (client.held? id).getD []

variable {client : Client} {id other : NetId} {version held : Version}

theorem held?_setHeld (versions : List (Version × View)) :
    (client.setHeld id versions).held? other =
      if id = other then some versions else client.held? other := by
  simp [held?, setHeld, Std.ExtTreeMap.getElem?_insert]

theorem holds_prune : (client.prune id version).Holds other held ↔
    client.Holds other held ∧ ¬ (other = id ∧ held < version) := by
  unfold prune
  cases hv : client.held? id with
  | none =>
    constructor
    · intro h
      refine ⟨h, fun ⟨he, _⟩ => ?_⟩
      rw [Holds, he, hv] at h
      simp at h
    · exact fun h => h.1
  | some versions =>
    have same : ∀ report, Holds { client.setHeld id (versions.filter fun entry =>
        version ≤ entry.1) with report } other held ↔ ∃ view, (held, view) ∈
          (if id = other then some (versions.filter fun entry => version ≤ entry.1)
            else client.held? other).getD [] := by
      intro report
      rw [← held?_setHeld]
      exact Iff.rfl
    rw [same, Holds]
    by_cases ho : id = other
    · subst ho
      simp only [if_true, Option.getD_some, List.mem_filter, hv, decide_eq_true_eq, true_and,
        UInt64.not_lt]
      exact ⟨fun ⟨view, hm, hle⟩ => ⟨⟨view, hm⟩, hle⟩, fun ⟨⟨view, hm⟩, hle⟩ => ⟨view, hm, hle⟩⟩
    · simp [ho, Ne.symm ho]

theorem prune_rest (client : Client) (id : NetId) (version : Version) :
    (client.prune id version).carried = client.carried ∧
      (client.prune id version).report.misses = client.report.misses := by
  unfold prune
  split <;> exact ⟨rfl, rfl⟩

/-- Forgetting the versions before the given ones. -/
theorem foldl_prune (states : List (NetId × Version)) (client : Client) :
    let pruned := states.foldl (fun client state => client.prune state.1 state.2) client
    pruned.carried = client.carried ∧ pruned.report.misses = client.report.misses ∧
      ∀ id version, pruned.Holds id version ↔ client.Holds id version ∧
        ¬ ∃ later, (id, later) ∈ states ∧ version < later := by
  induction states generalizing client with
  | nil => exact ⟨rfl, rfl, fun id version => by simp⟩
  | cons first rest ih =>
    obtain ⟨carried, misses, holds⟩ := ih (client.prune first.1 first.2)
    obtain ⟨carried', misses'⟩ := prune_rest client first.1 first.2
    refine ⟨carried.trans carried', misses.trans misses', fun id version => ?_⟩
    simp only [List.foldl_cons, holds, holds_prune, and_assoc]
    refine and_congr_right fun _ => ⟨?_, fun h => ⟨?_, ?_⟩⟩
    · rintro ⟨hfirst, hrest⟩ ⟨later, hm, lt⟩
      rcases List.mem_cons.1 hm with rfl | hm
      · exact hfirst ⟨rfl, lt⟩
      · exact hrest ⟨later, hm, lt⟩
    · rintro ⟨rfl, lt⟩
      exact h ⟨first.2, List.mem_cons_self, lt⟩
    · rintro ⟨later, hm, lt⟩
      exact h ⟨later, List.mem_cons_of_mem _ hm, lt⟩

/-- The client holds what a state builds on, if it builds on anything. -/
def Ready (client : Client) (state : Delta) : Prop :=
  ∀ base, state.baseline = some base → client.Holds state.netId base

theorem store_rest (client : Client) (state : Delta) (versions : List (Version × View))
    (view : View) : (client.store state versions view).carried = client.carried ∧
      (client.store state versions view).report.misses = client.report.misses := by
  unfold store
  split_ifs <;> exact ⟨rfl, rfl⟩

theorem holds_store (state : Delta) (versions : List (Version × View)) (view : View) :
    (client.store state versions view).Holds id version ↔ state.key = (id, version) ∨
      if state.netId = id then ∃ view, (version, view) ∈ versions else client.Holds id version := by
  have same : (client.store state versions view).Holds id version ↔
      ∃ view', (version, view') ∈ ((client.setHeld state.netId (Ascending.insert
        (fun entry => entry.1) (state.version, view) versions)).held? id).getD [] := by
    unfold store
    split_ifs <;> exact Iff.rfl
  rw [same, held?_setHeld]
  split_ifs with hid
  · subst hid
    simp only [Option.getD_some, Ascending.key_mem_insert, Delta.key, Prod.mk.injEq, true_and,
      eq_comm]
  · simp [Delta.key, hid, Holds]

/-- A complete state stands alone, one whose baseline is held joins the others, and any other is
missed. -/
theorem apply_cases (client : Client) (state : Delta) :
    (state.baseline = none ∧ client.apply state = client.store state [] (overlay state {})) ∨
      (∃ base view, state.baseline = some base ∧ client.Holds state.netId base ∧
        client.apply state = client.store state ((client.held? state.netId).getD [])
          (overlay state view)) ∨
      ∃ base, state.baseline = some base ∧ ¬ client.Holds state.netId base ∧
        (client.apply state).report.misses = client.report.misses + 1 := by
  cases hb : state.baseline with
  | none => exact .inl ⟨rfl, by simp only [apply, hb]⟩
  | some base =>
    cases hf : ((client.held? state.netId).getD []).find? fun entry => entry.1 = base with
    | none =>
      refine .inr (.inr ⟨base, rfl, fun ⟨view, hview⟩ => ?_, by simp only [apply, hb, hf, setHeld]⟩)
      have absent := List.find?_eq_none.1 hf _ hview
      simp at absent
    | some entry =>
      have key := List.find?_some hf
      rw [decide_eq_true_eq] at key
      exact .inr (.inl ⟨base, entry.2, rfl, ⟨entry.2, key ▸ List.mem_of_find?_eq_some hf⟩,
        by simp only [apply, hb, hf]⟩)

/-- A state that finds what it builds on is held; only a complete one makes others go. -/
theorem apply_ready {state : Delta} (ready : client.Ready state) :
    (client.apply state).carried = client.carried ∧
      (client.apply state).report.misses = client.report.misses ∧
      ∀ id version, (client.apply state).Holds id version ↔ state.key = (id, version) ∨
        (client.Holds id version ∧ (state.netId = id → state.baseline ≠ none)) := by
  rcases client.apply_cases state with ⟨hb, he⟩ | ⟨base, view, hb, -, he⟩ | ⟨base, hb, absent, -⟩
  · obtain ⟨carried, misses⟩ := store_rest client state [] (overlay state {})
    rw [he]
    refine ⟨carried, misses, fun id version => ?_⟩
    rw [holds_store]
    split_ifs with hid <;> simp [hid, hb]
  · obtain ⟨carried, misses⟩ := store_rest client state
      ((client.held? state.netId).getD []) (overlay state view)
    rw [he]
    refine ⟨carried, misses, fun id version => ?_⟩
    rw [holds_store]
    split_ifs with hid
    · subst hid
      simp [Holds, hb]
    · simp [hid]
  · exact absurd (ready base hb) absent

theorem apply_missed {state : Delta} (missed : ¬ client.Ready state) :
    (client.apply state).report.misses = client.report.misses + 1 := by
  rcases client.apply_cases state with ⟨hb, -⟩ | ⟨base, _, hb, holds, -⟩ | ⟨_, -, -, misses⟩
  · exact absurd (fun base h => by rw [hb] at h; cases h) missed
  · refine absurd (fun version hv => ?_) missed
    rwa [← Option.some.inj (hb.symm.trans hv)]
  · exact misses

theorem apply_misses_le (state : Delta) :
    client.report.misses ≤ (client.apply state).report.misses := by
  by_cases ready : client.Ready state
  · exact Nat.le_of_eq (apply_ready ready).2.1.symm
  · rw [apply_missed ready]
    exact Nat.le_succ _

/-- The clients that got the messages, in order, and at times lost others and ended ticks. -/
inductive Got : List Message → Client → Prop where
  | new (conditions : Conditions) (seed : UInt64) : Got [] (.new conditions seed)
  | receive {done : List Message} {client : Client} (message : Message) :
      Got done client → Got (done ++ [message]) (client.receive message)
  | lose {done : List Message} {client : Client} : Got done client → Got done client.loses.2
  | endTick {done : List Message} {client : Client} : Got done client → Got done client.endTick.2

/-- What a client that has missed nothing remembers and holds once it got the messages `done`, some
echoes and states. -/
structure Keeping (done : List Message) (echoes : List MessageId) (applied : List Delta)
    (client : Client) : Prop where
  records : ∀ acked states, client.carried[acked]? = some states →
    ∃ carrier ∈ done, carrier.id = acked ∧ states = carrier.states.map Delta.key
  fresh : ∀ id version, client.Holds id version → FreshIn applied id version
  held : ∀ id version, FreshIn applied id version →
    client.Holds id version ∨ Outdated done echoes id version

/-- The client has missed a state if and only if one reached back, and until then it keeps all that
is not outdated. -/
def InStep (done : List Message) (echoes : List MessageId) (applied : List Delta)
    (client : Client) : Prop :=
  (client.report.misses ≠ 0 ∧ ReachesBack applied) ∨
    (client.report.misses = 0 ∧ ¬ ReachesBack applied ∧ Keeping done echoes applied client)

variable {events : List Event} {table : ReplicaTable} {received done rest : List Message}
  {echoes : List MessageId} {applied : List Delta}

theorem Keeping.same {next : Client} (h : Keeping done echoes applied client)
    (carried : next.carried = client.carried) (views : next.views = client.views) :
    Keeping done echoes applied next := by
  have holds : ∀ id version, next.Holds id version ↔ client.Holds id version := by
    intro id version
    rw [Holds, held?, views]
    exact Iff.rfl
  exact ⟨carried ▸ h.records, fun id version hh => h.fresh id version ((holds id version).1 hh),
    fun id version hf => (h.held id version hf).imp_left (holds id version).2⟩

theorem InStep.same {next : Client} (h : InStep done echoes applied client)
    (misses : next.report.misses = client.report.misses) (carried : next.carried = client.carried)
    (views : next.views = client.views) : InStep done echoes applied next := by
  unfold InStep
  rw [misses]
  exact h.imp_right fun ⟨zero, ahead, keeping⟩ => ⟨zero, ahead, keeping.same carried views⟩

theorem release_misses (client : Client) (acked : MessageId) :
    (client.release acked).report.misses = client.report.misses := by
  unfold Client.release
  split
  · rfl
  · exact (foldl_prune _ _).2.1

/-- An echo makes only outdated versions go. -/
theorem Keeping.release (h : Keeping done echoes applied client) (acked : MessageId) :
    Keeping done (echoes ++ [acked]) applied (client.release acked) := by
  unfold Client.release
  cases hc : client.carried[acked]? with
  | none =>
    exact ⟨h.records, h.fresh, fun id version hf =>
      (h.held id version hf).imp_right (·.echo acked)⟩
  | some states =>
    obtain ⟨carrier, hcarrier, hid, rfl⟩ := h.records acked states hc
    obtain ⟨carried, -, holds⟩ := foldl_prune (carrier.states.map Delta.key)
      { client with carried := client.carried.erase acked }
    simp only
    constructor
    · intro other states ho
      rw [carried, Std.ExtTreeMap.getElem?_erase] at ho
      split_ifs at ho
      exact h.records other states ho
    · intro id version hh
      exact h.fresh id version ((holds id version).1 hh).1
    · intro id version hf
      rcases h.held id version hf with hh | outdated
      · by_cases superseded : ∃ later, (id, later) ∈ carrier.states.map Delta.key ∧ version < later
        · obtain ⟨version', hm, lt⟩ := superseded
          obtain ⟨carried, hcarried, hk⟩ := List.mem_map.1 hm
          obtain ⟨hn, rfl⟩ := Prod.mk.inj hk
          exact .inr ⟨carrier, hcarrier, by simp [hid], carried, hcarried, hn, lt⟩
        · exact .inl ((holds id version).2 ⟨hh, superseded⟩)
      · exact .inr (outdated.echo acked)

theorem InStep.releases (h : InStep done echoes applied client) (list : List MessageId) :
    InStep done (echoes ++ list) applied (list.foldl Client.release client) := by
  induction list generalizing echoes client with
  | nil => rwa [List.append_nil]
  | cons acked rest ih =>
    have onward : InStep done (echoes ++ [acked]) applied (client.release acked) := by
      unfold InStep
      rw [client.release_misses acked]
      exact h.imp_right fun ⟨zero, ahead, keeping⟩ => ⟨zero, ahead, keeping.release acked⟩
    have onward := ih onward
    rwa [List.append_assoc] at onward

/-- A state whose baseline is held becomes fresh as it becomes held. -/
theorem Keeping.apply (h : Keeping done echoes applied client) {state : Delta}
    (ready : client.Ready state) :
    Keeping done echoes (applied ++ [state]) (client.apply state) := by
  obtain ⟨carried, -, holds⟩ := apply_ready ready
  constructor
  · exact carried ▸ h.records
  · intro id version hh
    exact freshIn_append.2 (((holds id version).1 hh).imp_right (And.imp_left (h.fresh id version)))
  · intro id version hf
    rw [holds]
    rcases freshIn_append.1 hf with hk | ⟨hf, complete⟩
    · exact .inl (.inl hk)
    · exact (h.held id version hf).imp_left fun hh => .inr ⟨hh, complete⟩

theorem InStep.apply (transcript : Transcript events table received) {message : Message}
    (split : received = done ++ message :: rest)
    (heard : ∀ acked ∈ echoes, ∃ echoing ∈ done ++ [message], acked ∈ echoing.echoed)
    (h : InStep done echoes applied client) {state : Delta} (hs : state ∈ message.states) :
    InStep done echoes (applied ++ [state]) (client.apply state) := by
  rcases h with ⟨missed, behind⟩ | ⟨zero, ahead, keeping⟩
  · have more := client.apply_misses_le state
    exact .inl ⟨by omega, reachesBack_append.2 (.inl behind)⟩
  by_cases ready : client.Ready state
  · refine .inr ⟨(apply_ready ready).2.1.trans zero, fun behind => ?_, keeping.apply ready⟩
    rcases reachesBack_append.1 behind with behind | ⟨base, hb, stale⟩
    · exact ahead behind
    · exact stale (keeping.fresh _ _ (ready base hb))
  · -- The echoes so far cannot have made the baseline go, so a complete state has.
    obtain ⟨base, hb, absent⟩ : ∃ base, state.baseline = some base ∧
        ¬ client.Holds state.netId base := by
      simpa [Ready] using ready
    refine .inl ⟨by rw [apply_missed ready]; omega, reachesBack_append.2 (.inr ⟨base, hb, ?_⟩)⟩
    intro fresh
    rcases keeping.held _ _ fresh with hh | outdated
    · exact absent hh
    · exact transcript.base_not_outdated split hs hb heard outdated

theorem InStep.applies (transcript : Transcript events table received) {message : Message}
    (split : received = done ++ message :: rest)
    (heard : ∀ acked ∈ echoes, ∃ echoing ∈ done ++ [message], acked ∈ echoing.echoed)
    (h : InStep done echoes applied client) (states : List Delta)
    (hs : ∀ state ∈ states, state ∈ message.states) :
    InStep done echoes (applied ++ states) (states.foldl Client.apply client) := by
  induction states generalizing applied client with
  | nil => rwa [List.append_nil]
  | cons state rest ih =>
    have onward := ih (h.apply transcript split heard (hs state List.mem_cons_self))
      fun other ho => hs other (List.mem_cons_of_mem _ ho)
    rwa [List.append_assoc] at onward

/-- Remembering a message may give up the oldest, never what is remembered of another. -/
theorem remember_records {message : Message} {acked : MessageId} {states : List (NetId × Version)}
    (h : (client.remember message).carried[acked]? = some states) :
    client.carried[acked]? = some states ∨
      (message.id = acked ∧ states = message.states.map Delta.key) := by
  have inserted : (client.carried.insert message.id (message.states.map Delta.key))[acked]? =
      some states := by
    unfold remember at h
    simp only at h
    cases oldest : (if maxRemembered < (client.carried.insert message.id
        (message.states.map fun state => (state.netId, state.version))).size then
        (client.carried.insert message.id
          (message.states.map fun state => (state.netId, state.version))).minKey? else none) with
    | none =>
      rw [oldest] at h
      exact h
    | some id =>
      rw [oldest, Option.elim_some, Std.ExtTreeMap.getElem?_erase] at h
      split_ifs at h
      exact h
  rw [Std.ExtTreeMap.getElem?_insert] at inserted
  split_ifs at inserted with hid
  · exact .inr ⟨Std.LawfulEqCmp.eq_of_compare hid, (Option.some.inj inserted).symm⟩
  · exact .inl inserted

theorem hold_rest (client : Client) (delay : Nat) (ack : Packet) :
    (client.hold delay ack).report.misses = client.report.misses ∧
      (client.hold delay ack).carried = client.carried ∧
      (client.hold delay ack).views = client.views :=
  ⟨rfl, rfl, rfl⟩

theorem answer_rest (client : Client) (message : Message) :
    (client.answer message).report.misses = client.report.misses ∧
      (client.answer message).carried = client.carried ∧
      (client.answer message).views = client.views := by
  obtain ⟨twice, random, he⟩ : ∃ (twice : Bool) (random : Random), client.answer message =
      let ack := Ack.encode message.id message.sentAt
      let once := { client with random }.hold client.conditions.ackDelay ack
      if twice then once.hold (client.conditions.ackDelay + 1) ack else once :=
    ⟨_, _, by rw [answer]⟩
  rw [he]
  cases twice <;> exact hold_rest _ _ _

theorem loses_rest (client : Client) :
    client.loses.2.report.misses = client.report.misses ∧
      client.loses.2.carried = client.carried ∧ client.loses.2.views = client.views := by
  unfold loses
  generalize client.random.percent client.conditions.lossPercent = drawn
  obtain ⟨_ | _, random⟩ := drawn <;> exact ⟨rfl, rfl, rfl⟩

theorem InStep.receive (transcript : Transcript events table received) {message : Message}
    (split : received = done ++ message :: rest)
    (h : InStep done (done.flatMap Message.echoed) (done.flatMap Message.states) client) :
    InStep (done ++ [message]) ((done ++ [message]).flatMap Message.echoed)
      ((done ++ [message]).flatMap Message.states) (client.receive message) := by
  have counted : InStep done (done.flatMap Message.echoed) (done.flatMap Message.states)
      { client with report := { client.report with received := client.report.received + 1 } } :=
    h.same rfl rfl rfl
  have applied := (counted.releases message.echoed).applies transcript split
    (fun _ => exists_echoing) message.states fun _ hs => hs
  rw [List.flatMap_append, List.flatMap_append, List.flatMap_singleton, List.flatMap_singleton]
  obtain ⟨misses, carried, views⟩ := (client.take message).answer_rest message
  refine InStep.same ?_ misses carried views
  refine applied.imp (fun behind => behind) fun ⟨zero, ahead, keeping⟩ => ⟨zero, ahead, ?_⟩
  constructor
  · intro acked states hr
    rcases remember_records hr with hr | ⟨hid, hstates⟩
    · obtain ⟨carrier, hc, record⟩ := keeping.records acked states hr
      exact ⟨carrier, List.mem_append_left _ hc, record⟩
    · exact ⟨message, by simp, hid, hstates⟩
  · exact keeping.fresh
  · intro id version hf
    exact (keeping.held id version hf).imp_right (·.arrive message)

theorem Got.of_foldl (conditions : Conditions) (seed : UInt64) (messages : List Message) :
    Got messages (messages.foldl Client.receive (.new conditions seed)) := by
  have onward : ∀ rest done client, Got done client →
      Got (done ++ rest) (rest.foldl Client.receive client) := by
    intro rest
    induction rest with
    | nil => exact fun done _ got => by rwa [List.append_nil]
    | cons message rest ih =>
      intro done client got
      have more := ih _ _ (got.receive message)
      rwa [List.append_assoc] at more
  exact onward messages [] _ (.new conditions seed)

theorem Got.in_step (got : Got done client) (transcript : Transcript events table received)
    {rest : List Message} (split : received = done ++ rest) :
    InStep done (done.flatMap Message.echoed) (done.flatMap Message.states) client := by
  induction got generalizing rest with
  | new conditions seed =>
    refine .inr ⟨rfl, ?_, ?_, ?_, ?_⟩
    · rintro ⟨before, state, since, base, split, -⟩
      simp at split
    · intro acked states hr
      simp [Client.new] at hr
    · intro id version hh
      simp [Holds, held?, Client.new] at hh
    · rintro id version ⟨before, state, since, split, -⟩
      simp at split
  | receive message got ih =>
    rw [List.append_assoc] at split
    exact (ih split).receive transcript split
  | @lose _ client got ih =>
    obtain ⟨misses, carried, views⟩ := client.loses_rest
    exact (ih split).same misses carried views
  | endTick got ih => exact (ih split).same rfl rfl rfl

end Sim.Client

namespace Exchange

/-- Entity 7 is seen three times. The first message is acknowledged once the second has arrived, so
the third builds on the first. -/
def overtaken : Exchange :=
  ((((begun.tick 1 [7]).deliver.tick 2 [7]).deliver.acknowledge ⟨0, 0, 0⟩).tick 3 [7]).deliver

def overtakenClient : Sim.Client :=
  overtaken.received.foldl Sim.Client.receive (.new ⟨0, 0, 1⟩ 1)

theorem overtaken_reachable : Reachable ⟨⟨.one, .one, .one⟩⟩ {} overtaken := by
  have got : (0 : MessageId) ∈
      ((begun.tick 1 [7]).deliver.tick 2 [7]).deliver.received.map Message.id := by decide_cbv
  have h : Reachable ⟨⟨.one, .one, .one⟩⟩ {} (begun.tick 1 [7]).deliver :=
    (Reachable.initial.tick 1 [7] (by simp [Pace.Admits])).deliver
  have h := (h.tick 2 [7] (by simp [Pace.Admits])).deliver.acknowledge ⟨0, 0, 0⟩ got
  exact (h.tick 3 [7] (by simp [Pace.Admits])).deliver

theorem overtaken_few : Few overtaken.events := by decide_cbv

theorem overtakenClient_got : Sim.Client.Got overtaken.received overtakenClient :=
  .of_foldl _ _ _

set_option maxRecDepth 4000 in
theorem overtakenClient_misses : overtakenClient.report.misses = 1 := by decide_cbv

/-- However messages are lost and acknowledgments are late, doubled or reordered, the simulated
client misses a baseline if and only if a state that it got reaches back behind a complete one. -/
theorem simulated_client_misses_iff {grid : Grid} {settings : Settings} {x : Exchange}
    {client : Sim.Client} (h : Reachable grid settings x) (few : Few x.events)
    (got : Sim.Client.Got x.received client) :
    client.report.misses ≠ 0 ↔ ReachesBack (x.received.flatMap Message.states) := by
  have step := got.in_step (transcript_of_reachable h few) (List.append_nil _).symm
  rcases step with ⟨missed, behind⟩ | ⟨zero, ahead, -⟩
  · exact iff_of_true missed behind
  · exact iff_of_false (fun missed => missed zero) ahead

/-- The third message builds on the first, with the complete state of the second between them. -/
theorem simulated_client_misses_iff_overtaken :
    Few overtaken.events ∧ ReachesBack (overtaken.received.flatMap Message.states) := by
  refine ⟨overtaken_few, ?_⟩
  apply (simulated_client_misses_iff overtaken_reachable overtaken_few overtakenClient_got).1
  rw [overtakenClient_misses]
  decide

/-- Not every client that got the messages of an exchange has missed nothing. -/
theorem simulated_client_can_miss :
    ¬ ∀ (x : Exchange) (client : Sim.Client), Reachable ⟨⟨.one, .one, .one⟩⟩ {} x → Few x.events →
      Sim.Client.Got x.received client → client.report.misses = 0 := by
  intro always
  have zero := always _ _ overtaken_reachable overtaken_few overtakenClient_got
  rw [overtakenClient_misses] at zero
  exact absurd zero (by decide)

end Exchange

end AreaReplication
