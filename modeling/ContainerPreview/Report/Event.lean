/-!
# Events of a transform

A transform does not write to a log.  It gives its result together with the
events on the way to it, in order; what is counted and what is shown of them is
decided by whoever observes them.
-/

namespace ContainerPreview

/-- Something that happened while a style sheet was transformed. -/
inductive Event where
  /-- A rule was given a container variant. -/
  | ruleProcessed
  /-- A media block was translated. -/
  | mediaProcessed
  /-- The fixed position of a container variant was turned into a sticky one. -/
  | fixedConverted
  /-- A viewport unit was replaced. -/
  | unitConverted (unit target : String)
  /-- A remark about a node from the given source. -/
  | note (message : String) (source : Option String)
  /-- A warning, with the text that it is about. -/
  | warning (message detail : String)
  /-- The hook was applied to a media query. -/
  | hookCalled (query : String)
  /-- A pass came to its end. -/
  | passEnded
deriving DecidableEq, Repr

/-- A value with the events that led to it. -/
structure Traced (α : Type) where
  value : α
  events : List Event
deriving Repr

namespace Traced

variable {α β : Type}

/-- A value that is reached without an event. -/
def silent (value : α) : Traced α :=
  { value, events := [] }

/-- The events of both computations, one after the other. -/
def andThen (first : Traced α) (next : α → Traced β) : Traced β :=
  let second := next first.value
  { value := second.value, events := first.events ++ second.events }

instance : Monad Traced where
  pure := silent
  bind := andThen

instance : LawfulMonad Traced :=
  LawfulMonad.mk' Traced
    (by intros; simp [Functor.map, andThen, silent])
    (by intros; simp [bind, pure, andThen, silent])
    (by intros; simp [bind, andThen, List.append_assoc])

/-- A single event. -/
def emit (event : Event) : Traced Unit :=
  { value := (), events := [event] }

/-- An event that happens only under a condition. -/
def emitIf (condition : Bool) (event : Event) : Traced Unit :=
  { value := (), events := if condition then [event] else [] }

@[simp]
theorem value_pure (value : α) : (pure value : Traced α).value = value :=
  rfl

@[simp]
theorem events_pure (value : α) : (pure value : Traced α).events = [] :=
  rfl

@[simp]
theorem value_bind (first : Traced α) (next : α → Traced β) :
    (first >>= next).value = (next first.value).value :=
  rfl

@[simp]
theorem events_bind (first : Traced α) (next : α → Traced β) :
    (first >>= next).events = first.events ++ (next first.value).events :=
  rfl

@[simp]
theorem value_map (change : α → β) (traced : Traced α) :
    (change <$> traced).value = change traced.value :=
  rfl

@[simp]
theorem events_map (change : α → β) (traced : Traced α) :
    (change <$> traced).events = traced.events := by
  rw [map_eq_pure_bind, events_bind]
  simp

@[simp]
theorem value_mapM (visit : α → Traced β) (values : List α) :
    (values.mapM visit).value = values.map fun value => (visit value).value := by
  induction values with
  | nil => simp
  | cons value values inductionHypothesis => simp [inductionHypothesis]

@[simp]
theorem events_mapM (visit : α → Traced β) (values : List α) :
    (values.mapM visit).events = values.flatMap fun value => (visit value).events := by
  induction values with
  | nil => simp
  | cons value values inductionHypothesis => simp [inductionHypothesis]

/-- Only what follows the value that was reached matters. -/
theorem bind_congr {first : Traced α} {next next' : α → Traced β}
    (same : next first.value = next' first.value) : first >>= next = first >>= next' := by
  change andThen first next = andThen first next'
  simp only [andThen, same]

theorem mapM_congr {visit visit' : α → Traced β} {values : List α}
    (same : ∀ value ∈ values, visit value = visit' value) :
    values.mapM visit = values.mapM visit' := by
  induction values with
  | nil => rfl
  | cons value values inductionHypothesis =>
      rw [List.mapM_cons, List.mapM_cons, same value List.mem_cons_self,
        inductionHypothesis fun other member => same other (List.mem_cons_of_mem value member)]

@[simp]
theorem events_emit (event : Event) : (emit event).events = [event] :=
  rfl

@[simp]
theorem events_emitIf (condition : Bool) (event : Event) :
    (emitIf condition event).events = if condition then [event] else [] :=
  rfl

end Traced

end ContainerPreview
