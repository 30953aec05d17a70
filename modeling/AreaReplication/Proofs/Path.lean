import AreaReplication.Event

/-!
# Paths of steps that note events

An operation is shown to be a path of small steps. An invariant then speaks of a state together with
all events up to it, and one lemma a step carries it over every operation.
-/
namespace AreaReplication

/-- Events that record nothing of the ids given out, the states queued or the messages sent. -/
def Event.isRemark : Event → Bool
  | .idAssigned .. | .idRetired .. | .queued .. | .sent .. => false
  | _ => true

inductive Path {σ : Type} (step : σ → List Event → σ → Prop) : σ → List Event → σ → Prop where
  | refl (s) : Path step s [] s
  | tail {s u v es fs} : Path step s es u → step u fs v → Path step s (es ++ fs) v

namespace Path

variable {σ τ : Type} {step : σ → List Event → σ → Prop} {next : τ → List Event → τ → Prop}
  {s u v : σ} {es fs : List Event}

theorem single (h : step s es u) : Path step s es u := (refl s).tail h

theorem trans (h : Path step s es u) (k : Path step u fs v) : Path step s (es ++ fs) v := by
  induction k with
  | refl => rwa [List.append_nil]
  | tail _ hs ih =>
    rw [← List.append_assoc]
    exact ih.tail hs

/-- A path seen inside a larger state. -/
theorem map (lift : σ → τ) (hl : ∀ a as b, step a as b → next (lift a) as (lift b))
    (h : Path step s es u) : Path next (lift s) es (lift u) := by
  induction h with
  | refl => exact .refl _
  | tail _ hs ih => exact ih.tail (hl _ _ _ hs)

/-- What every step keeps, a path keeps. -/
theorem keeps {P : List Event → σ → Prop}
    (hstep : ∀ events a as b, P events a → step a as b → P (events ++ as) b)
    (h : Path step s es u) (events : List Event) (hp : P events s) : P (events ++ es) u := by
  induction h with
  | refl => rwa [List.append_nil]
  | tail _ hs ih =>
    rw [← List.append_assoc]
    exact hstep _ _ _ _ ih hs

/-- Steps that only note events, one for each. -/
theorem remarks (hstep : ∀ event, event ∈ es → step s [event] s) : Path step s es s := by
  induction es with
  | nil => exact .refl s
  | cons event rest ih =>
    have first : Path step s [event] s := single (hstep event (by simp))
    exact first.trans (ih fun other ho => hstep other (by simp [ho]))

/-- A step that notes one event, or nothing at all. -/
theorem noteIf (condition : Bool) {event : Event} (hstep : step s [event] s) :
    Path step s (AreaReplication.noteIf condition event).events s := by
  cases condition with
  | true => exact single hstep
  | false => exact .refl s

end Path

/-- Events that neither send a message nor queue a state for one. -/
def Event.isSilent : Event → Bool
  | .queued .. | .sent .. => false
  | _ => true

def Silent (events : List Event) : Prop := ∀ event ∈ events, event.isSilent

@[simp] theorem silent_nil : Silent [] := nofun

/-- Ids are no remark, so a remark gives none out. -/
theorem Event.not_assigned {event : Event} (h : event.isRemark) (id : NetId)
    (entity : EntityId) : .idAssigned id entity ∉ [event] := by
  intro hm
  rw [← List.mem_singleton.1 hm] at h
  cases h

theorem Silent.of_remark {event : Event} (h : event.isRemark) : Silent [event] := by
  intro other ho
  rw [List.mem_singleton.1 ho]
  cases event with
  | queued | sent => cases h
  | _ => rfl

theorem Silent.append {es fs : List Event} (h : Silent es) (k : Silent fs) : Silent (es ++ fs) :=
  fun event he => (List.mem_append.1 he).elim (h event) (k event)

@[simp] theorem messagesSent_nil : messagesSent [] = [] := rfl

@[simp] theorem messagesSent_append (es fs : List Event) :
    messagesSent (es ++ fs) = messagesSent es ++ messagesSent fs :=
  List.filterMap_append

theorem mem_messagesSent {message : Message} {events : List Event} :
    message ∈ messagesSent events ↔ ∃ packet, .sent message packet ∈ events := by
  simp only [messagesSent, List.mem_filterMap]
  constructor
  · rintro ⟨event, he, hm⟩
    cases event with
    | sent other packet =>
      obtain rfl : other = message := by simpa using hm
      exact ⟨packet, he⟩
    | _ => simp at hm
  · rintro ⟨packet, he⟩
    exact ⟨_, he, rfl⟩

theorem messagesSent_eq_nil {events : List Event}
    (h : ∀ message packet, .sent message packet ∉ events) : messagesSent events = [] := by
  refine List.eq_nil_iff_forall_not_mem.2 fun message hm => ?_
  obtain ⟨packet, hp⟩ := mem_messagesSent.1 hm
  exact h message packet hp

theorem messagesSent_concat (events : List Event) (message : Message) (packet : Packet) :
    messagesSent (events ++ [.sent message packet]) = messagesSent events ++ [message] :=
  messagesSent_append events _

namespace Silent

variable {events : List Event}

theorem messagesSent (h : Silent events) : messagesSent events = [] :=
  messagesSent_eq_nil fun message packet hm => by cases h _ hm

theorem not_queued (h : Silent events) (message : MessageId) (entity : EntityId)
    (shown : Snapshot) (state : Delta) : .queued message entity shown state ∉ events :=
  fun hm => by cases h _ hm

end Silent

end AreaReplication
