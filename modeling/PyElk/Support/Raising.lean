import Mathlib.Order.Antisymmetrization

/-- A program that may raise, and that keeps what it has written until then. -/
def Raising (ε σ α : Type) := σ → Except ε α × σ

namespace Raising

variable {ε σ α β : Type}

instance : Monad (Raising ε σ) where
  pure value := fun state => (.ok value, state)
  bind step next := fun state =>
    match step state with
    | (.ok value, later) => next value later
    | (.error raised, later) => (.error raised, later)

/-- What the program reads of the state. -/
def read (field : σ → α) : Raising ε σ α := fun state => (.ok (field state), state)

def write (change : σ → σ) : Raising ε σ Unit := fun state => (.ok (), change state)

def raise (raised : ε) : Raising ε σ α := fun state => (.error raised, state)

/-- A lookup that raises when it finds nothing. -/
def demand (raised : ε) : Option α → Raising ε σ α
  | some value => pure value
  | none => raise raised

/-- A computation that leaves the state alone. -/
def check (outcome : Except ε α) : Raising ε σ α := fun state => (outcome, state)

/-- A change that is made whether the program raises or not. -/
def closing (step : Raising ε σ α) (change : σ → σ) : Raising ε σ α :=
  fun state => ((step state).1, change (step state).2)

/-- The body of a loop over a list. -/
def each (body : β → Raising ε σ Unit) : List β → Raising ε σ Unit
  | [] => pure ()
  | item :: rest => do
    body item
    each body rest

section

variable {step : Raising ε σ α} {next : α → Raising ε σ β} {state later : σ}

/-- A program goes on where its first step has returned. -/
theorem bind_ok {value : α} (done : step state = (.ok value, later)) : (step >>= next) state = next value later := by
  change (match step state with
    | (.ok value, later) => next value later
    | (.error raised, later) => (.error raised, later)) = _
  rw [done]

/-- A program stops where its first step has raised. -/
theorem bind_error {raised : ε} (failed : step state = (.error raised, later)) :
    (step >>= next) state = (.error raised, later) := by
  change (match step state with
    | (.ok value, later) => next value later
    | (.error raised, later) => (.error raised, later)) = _
  rw [failed]

end

/-- The program computes a partial function, and raises where that has no value. -/
def Computes (step : Raising ε σ α) (partial_ : σ → Option (α × σ)) : Prop :=
  ∀ state, (∀ result, partial_ state = some result → step state = (.ok result.1, result.2)) ∧
    (partial_ state = none → ∃ raised, (step state).1 = .error raised)

theorem Computes.pure (value : α) : Computes (Pure.pure value : Raising ε σ α) fun state => some (value, state) := by
  intro state
  refine ⟨fun result same => ?_, fun missing => nomatch missing⟩
  cases same
  rfl

/-- The partial functions of two steps compose. -/
theorem Computes.bind {step : Raising ε σ α} {next : α → Raising ε σ β} {partial_ : σ → Option (α × σ)}
    {others : α → σ → Option (β × σ)} (first : Computes step partial_)
    (second : ∀ value, Computes (next value) (others value)) :
    Computes (step >>= next) fun state => (partial_ state).bind fun result => others result.1 result.2 := by
  intro state
  obtain ⟨finds, misses⟩ := first state
  cases found : partial_ state with
  | none =>
    refine ⟨fun result same => ?_, fun _ => ?_⟩
    · dsimp only at same
      rw [found] at same
      cases same
    · obtain ⟨raised, failed⟩ := misses found
      exact ⟨raised, congrArg Prod.fst (bind_error (Prod.ext failed rfl))⟩
  | some middle =>
    have done := finds middle found
    dsimp only
    rw [bind_ok done, found]
    exact second middle.1 middle.2

theorem Computes.congr {step : Raising ε σ α} {partial_ other : σ → Option (α × σ)}
    (computes : Computes step partial_)
    (same : ∀ state, other state = partial_ state) : Computes step other := by
  intro state
  rw [same state]
  exact computes state

theorem Computes.read (field : σ → α) :
    Computes (read field : Raising ε σ α) fun state => some (field state, state) := by
  intro state
  refine ⟨fun result same => ?_, fun missing => ?_⟩
  · cases same
    rfl
  · cases missing

theorem Computes.write (change : σ → σ) :
    Computes (write change : Raising ε σ Unit) fun state => some ((), change state) := by
  intro state
  refine ⟨fun result same => ?_, fun missing => ?_⟩
  · cases same
    rfl
  · cases missing

theorem Computes.demand (raised : ε) (found : Option α) :
    Computes (demand raised found : Raising ε σ α) fun state => found.map fun value => (value, state) := by
  intro state
  cases found with
  | none => exact ⟨fun result same => (by cases same), fun _ => ⟨raised, rfl⟩⟩
  | some value => exact (Computes.pure value) state

/-- A loop whose turns append what they read of their items. -/
theorem Computes.each_append {γ : Type} {body : β → Raising ε σ Unit} {image : β → Option γ} {append : List γ → σ → σ}
    (turn : ∀ item, Computes (body item) fun state => (image item).map fun value => ((), append [value] state))
    (nothing : ∀ state, append [] state = state)
    (twice : ∀ first second state, append second (append first state) = append (first ++ second) state)
    (items : List β) :
    Computes (each body items) fun state => (items.mapM image).map fun values => ((), append values state) := by
  induction items with
  | nil =>
    exact (Computes.pure ()).congr fun state => by rw [List.mapM_nil, Option.pure_def, Option.map_some, nothing]
  | cons item rest ih =>
    refine ((turn item).bind fun _ => ih).congr fun state => ?_
    rw [List.mapM_cons]
    cases image item with
    | none => rfl
    | some value =>
      cases found : rest.mapM image with
      | none => simp
      | some values => simp [twice]

/-- A loop computes the fold of what its turns compute. -/
theorem Computes.each_fold {body : β → Raising ε σ Unit} {turn : σ → β → Option σ}
    (computes : ∀ item, Computes (body item) fun state => (turn state item).map fun later => ((), later))
    (items : List β) :
    Computes (each body items) fun state => (items.foldlM turn state).map fun later => ((), later) := by
  induction items with
  | nil => exact Computes.pure ()
  | cons item rest ih =>
    refine ((computes item).bind fun _ => ih).congr fun state => ?_
    rw [List.foldlM_cons]
    cases turn state item with
    | none => rfl
    | some later => rfl

/-- The first item that is not quiet stops. -/
def Halts (quiet stops : β → Prop) : List β → Prop
  | [] => False
  | item :: rest => stops item ∨ quiet item ∧ Halts quiet stops rest

/-- What holds after a program that starts well: of its value, or once it has raised. -/
def Ensures (before : σ → Prop) (step : Raising ε σ α) (after : α → σ → Prop) (failed : σ → Prop) : Prop :=
  ∀ state, before state → (∀ value later, step state = (.ok value, later) → after value later) ∧
    ∀ raised later, step state = (.error raised, later) → failed later

section

variable {before failed : σ → Prop} {after : α → σ → Prop}

theorem Ensures.pure {value : α} (holds : ∀ state, before state → after value state) :
    Ensures before (Pure.pure value : Raising ε σ α) after failed := by
  intro state start
  refine ⟨fun _ _ same => ?_, fun _ _ same => ?_⟩
  · cases same
    exact holds state start
  · cases same

theorem Ensures.write {change : σ → σ} {after : Unit → σ → Prop}
    (holds : ∀ state, before state → after () (change state)) :
    Ensures before (write change : Raising ε σ Unit) after failed := by
  intro state start
  refine ⟨fun _ _ same => ?_, fun _ _ same => ?_⟩
  · cases same
    exact holds state start
  · cases same

theorem Ensures.read {field : σ → α} (holds : ∀ state, before state → after (field state) state) :
    Ensures before (read field : Raising ε σ α) after failed := by
  intro state start
  refine ⟨fun _ _ same => ?_, fun _ _ same => ?_⟩
  · cases same
    exact holds state start
  · cases same

theorem Ensures.raise {raised : ε} (stays : ∀ state, before state → failed state) :
    Ensures before (raise raised : Raising ε σ α) after failed := by
  intro state start
  refine ⟨fun _ _ same => ?_, fun _ _ same => ?_⟩
  · cases same
  · cases same
    exact stays state start

/-- A change that is made on both ways out. -/
theorem Ensures.closing {step : Raising ε σ α} {change : σ → σ} {final : α → σ → Prop}
    (ensures : Ensures before step after failed)
    (holds : ∀ value state, after value state → final value (change state))
    (stays : ∀ state, failed state → failed (change state)) :
    Ensures before (closing step change) final failed := by
  intro state start
  obtain ⟨succeeds, fails⟩ := ensures state start
  cases outcome : step state with
  | mk result later =>
    refine ⟨fun value last same => ?_, fun raised last same => ?_⟩
    · rw [Raising.closing, outcome] at same
      cases same
      exact holds value later (succeeds value later outcome)
    · rw [Raising.closing, outcome] at same
      cases same
      exact stays later (fails raised later outcome)

/-- A value that is demanded is there, or nothing has changed. -/
theorem Ensures.demand {raised : ε} {found : Option α}
    (holds : ∀ value state, found = some value → before state → after value state)
    (stays : ∀ state, before state → failed state) :
    Ensures before (demand raised found : Raising ε σ α) after failed := by
  cases found with
  | some value => exact .pure (holds value · rfl)
  | none =>
    intro state start
    refine ⟨fun _ _ same => ?_, fun _ _ same => ?_⟩
    · cases same
    · cases same
      exact stays state start

/-- What the first step ensures is what the second one starts from. -/
theorem Ensures.bind {step : Raising ε σ α} {next : α → Raising ε σ β} {final : β → σ → Prop}
    (first : Ensures before step after failed) (second : ∀ value, Ensures (after value) (next value) final failed) :
    Ensures before (step >>= next) final failed := by
  intro state start
  cases outcome : step state with
  | mk result later =>
    cases result with
    | ok value =>
      rw [bind_ok outcome]
      exact second value later ((first state start).1 value later outcome)
    | error raised =>
      rw [bind_error outcome]
      refine ⟨fun _ _ same => ?_, fun _ _ same => ?_⟩
      · cases same
      · cases same
        exact (first state start).2 raised later outcome

/-- What a check has found is a fact of the rest. -/
theorem Ensures.check_bind {outcome : Except ε α} {next : α → Raising ε σ β} {final : β → σ → Prop}
    (second : ∀ value, outcome = .ok value → Ensures before (next value) final failed)
    (stays : ∀ state, before state → failed state) :
    Ensures before (Raising.check outcome >>= next) final failed := by
  cases outcome with
  | ok value => exact second value rfl
  | error raised => exact .raise stays

theorem Ensures.read_bind {γ : Type} {field : σ → γ} {next : γ → Raising ε σ β} {final : β → σ → Prop}
    (second : ∀ value, Ensures before (next value) final failed) :
    Ensures before (Raising.read field >>= next) final failed :=
  fun state start => second (field state) state start

theorem Ensures.write_bind {change : σ → σ} {next : Raising ε σ β} {final : β → σ → Prop}
    (keeps : ∀ state, before state → before (change state)) (second : Ensures before next final failed) :
    Ensures before (Raising.write change >>= fun _ => next) final failed :=
  fun state start => second (change state) (keeps state start)

/-- So is what a step says of its value. -/
theorem Ensures.bind_fact {step : Raising ε σ α} {next : α → Raising ε σ β} {final : β → σ → Prop} {middle : σ → Prop}
    {fact : α → Prop} (first : Ensures before step (fun value state => middle state ∧ fact value) failed)
    (second : ∀ value, fact value → Ensures middle (next value) final failed) :
    Ensures before (step >>= next) final failed := by
  refine .bind first fun value state known => ?_
  exact second value known.2 state known.1

/-- The rule of consequence. -/
theorem Ensures.weaken {step : Raising ε σ α} {earlier : σ → Prop} {weaker : α → σ → Prop}
    (ensures : Ensures before step after failed) (starts : ∀ state, earlier state → before state)
    (implies : ∀ value state, after value state → weaker value state) : Ensures earlier step weaker failed :=
  fun state start =>
    ⟨fun value later same => implies value later ((ensures state (starts state start)).1 value later same),
    (ensures state (starts state start)).2⟩

/-- A loop keeps what each of its turns does. -/
theorem Ensures.each {body : β → Raising ε σ Unit} {items : List β}
    (keeps : ∀ item ∈ items, Ensures before (body item) (fun _ => before) failed) :
    Ensures before (each body items) (fun _ => before) failed := by
  induction items with
  | nil => exact .pure fun _ => id
  | cons item rest ih =>
    exact .bind (keeps item (.head _)) fun _ => ih fun other member => keeps other (.tail _ member)

end

/-- What holds of the value of a program, if it gives one. -/
def Returns (step : Raising ε σ α) (post : α → Prop) : Prop :=
  ∀ state value later, step state = (.ok value, later) → post value

section

variable {step : Raising ε σ α} {next : α → Raising ε σ β} {post : α → Prop} {final : β → Prop}

theorem Returns.pure {value : α} (holds : post value) : Returns (Pure.pure value : Raising ε σ α) post := by
  intro state other later same
  cases same
  exact holds

theorem Returns.raise (raised : ε) : Returns (Raising.raise raised : Raising ε σ α) post := by
  intro state value later same
  cases same

theorem Returns.check {outcome : Except ε α} (holds : ∀ value, outcome = .ok value → post value) :
    Returns (Raising.check outcome : Raising ε σ α) post := by
  intro state value later same
  cases same
  exact holds value rfl

theorem Returns.if_pos {condition : Prop} [Decidable condition] {other : Raising ε σ α} (holds : condition)
    (returns : Returns step post) :
    Returns (if condition then step else other) post := by
  rw [ite_cond_eq_true _ _ (eq_true holds)]
  exact returns

theorem Returns.if_neg {condition : Prop} [Decidable condition] {other : Raising ε σ α} (fails : ¬ condition)
    (returns : Returns step post) :
    Returns (if condition then other else step) post := by
  rw [ite_cond_eq_false _ _ (eq_false fails)]
  exact returns

theorem Returns.any (step : Raising ε σ α) : Returns step fun _ => True := fun _ _ _ _ => trivial

/-- The rule of consequence. -/
theorem Returns.weaken {weaker : α → Prop} (returns : Returns step post)
    (implies : ∀ value, post value → weaker value) :
    Returns step weaker := fun state value later same => implies value (returns state value later same)

/-- What the first step returns is what the second one starts from. -/
theorem Returns.bind (first : Returns step post) (second : ∀ value, post value → Returns (next value) final) :
    Returns (step >>= next) final := by
  intro state last later same
  cases outcome : step state with
  | mk result middle =>
    cases result with
    | ok value =>
      rw [bind_ok outcome] at same
      exact second value (first state value middle outcome) middle last later same
    | error raised =>
      rw [bind_error outcome] at same
      cases same

theorem Returns.check_bind {outcome : Except ε α}
    (second : ∀ value, outcome = .ok value → Returns (next value) final) :
    Returns (Raising.check outcome >>= next) final := .bind (.check fun _ => id) second

theorem Returns.bind_any (second : ∀ value, Returns (next value) final) : Returns (step >>= next) final :=
  .bind (.any step) fun value _ => second value

/-- A loop: the invariant is about the value and the items that are done. -/
theorem Returns.foldlM {body : α → β → Raising ε σ α} {items : List β} {start : α} (inv : α → List β → Prop)
    (begins : inv start [])
    (each : ∀ done item rest value, items = done ++ item :: rest → inv value done →
      Returns (body value item) fun later => inv later (done ++ [item])) :
    Returns (items.foldlM body start) fun last => inv last items := by
  suffices from_ : ∀ rest done value, items = done ++ rest → inv value done →
      Returns (rest.foldlM body value) fun last => inv last items from from_ items [] start rfl begins
  intro rest
  induction rest with
  | nil =>
    intro done value whole holds
    rw [List.append_nil] at whole
    exact .pure (whole ▸ holds)
  | cons item rest ih =>
    intro done value whole holds
    refine .bind (each done item rest value whole holds) fun later kept => ih (done ++ [item]) later ?_ kept
    rw [whole, List.append_assoc]
    rfl

/-- What each turn finds, whatever it carries. -/
theorem Returns.foldlM_each {body : α → β → Raising ε σ α} {items : List β} {start : α} {fact : β → Prop}
    (each : ∀ item ∈ items, ∀ value, Returns (body value item) fun _ => fact item) :
    Returns (items.foldlM body start) fun _ => ∀ item ∈ items, fact item := by
  refine .foldlM (fun _ done => ∀ item ∈ done, fact item) (fun _ member => nomatch member)
    fun done item rest value whole holds => ?_
  refine .weaken (each item (whole ▸ List.mem_append_right _ (.head _)) value) fun _ found other member => ?_
  obtain before | here := List.mem_append.mp member
  · exact holds other before
  · rw [List.mem_singleton.mp here]
    exact found

/-- A loop that carries nothing: what each turn finds. -/
theorem Returns.each {body : β → Raising ε σ Unit} {items : List β} {fact : β → Prop}
    (turn : ∀ item ∈ items, Returns (body item) fun _ => fact item) :
    Returns (each body items) fun _ => ∀ item ∈ items, fact item := by
  induction items with
  | nil => exact .pure fun item member => nomatch member
  | cons item rest ih =>
    refine .bind (turn item (.head _)) fun _ here => ?_
    refine .weaken (ih fun other member => turn other (.tail _ member)) fun _ later => ?_
    exact List.forall_mem_cons.mpr ⟨here, later⟩

end

/-- What a program gives where it returns, and what it raises where it does not. -/
def Settles (step : Raising ε σ α) (post : α → Prop) (stops : ε → Prop) : Prop :=
  ∀ state, (∀ value later, step state = (.ok value, later) → post value) ∧
    ∀ raised later, step state = (.error raised, later) → stops raised

/-- The same of one run, from one state. -/
def SettlesFrom (state : σ) (step : Raising ε σ α) (post : α → Prop) (stops : ε → Prop) : Prop :=
  (∀ value later, step state = (.ok value, later) → post value) ∧
    ∀ raised later, step state = (.error raised, later) → stops raised

section

variable {step : Raising ε σ α} {next : α → Raising ε σ β} {post : α → Prop} {final : β → Prop} {stops : ε → Prop}

theorem Settles.returns (settles : Settles step post stops) : Returns step post := fun state => (settles state).1

theorem Settles.pure {value : α} (holds : post value) : Settles (Pure.pure value : Raising ε σ α) post stops := by
  intro state
  refine ⟨fun other later same => ?_, fun raised later same => ?_⟩
  · cases same
    exact holds
  · cases same

theorem Settles.raise {raised : ε} (stopped : stops raised) :
    Settles (Raising.raise raised : Raising ε σ α) post stops := by
  intro state
  refine ⟨fun value later same => ?_, fun other later same => ?_⟩
  · cases same
  · cases same
    exact stopped

theorem Settles.check {outcome : Except ε α} (holds : ∀ value, outcome = .ok value → post value)
    (fails : ∀ raised, outcome = .error raised → stops raised) :
    Settles (Raising.check outcome : Raising ε σ α) post stops := by
  cases outcome with
  | ok value => exact .pure (holds value rfl)
  | error raised => exact .raise (fails raised rfl)

/-- The rule of consequence. -/
theorem Settles.weaken {weaker : α → Prop} {others : ε → Prop} (settles : Settles step post stops)
    (implies : ∀ value, post value → weaker value) (allows : ∀ raised, stops raised → others raised) :
    Settles step weaker others :=
  fun state => ⟨fun value later same => implies value ((settles state).1 value later same),
    fun raised later same => allows raised ((settles state).2 raised later same)⟩

/-- A program settles with the errors of its steps. -/
theorem Settles.bind (first : Settles step post stops)
    (second : ∀ value, post value → Settles (next value) final stops) :
    Settles (step >>= next) final stops := by
  intro state
  cases outcome : step state with
  | mk result middle =>
    cases result with
    | ok value =>
      rw [bind_ok outcome]
      exact second value ((first state).1 value middle outcome) middle
    | error raised =>
      rw [bind_error outcome]
      refine ⟨fun value later same => ?_, fun other later same => ?_⟩
      · cases same
      · cases same
        exact (first state).2 raised _ outcome

/-- A check that passes. -/
theorem Settles.check_ok {outcome : Except ε α} {value : α} (found : outcome = .ok value)
    (second : Settles (next value) final stops) :
    Settles (Raising.check outcome >>= next) final stops := by
  rw [found]
  exact second

theorem Settles.check_bind {outcome : Except ε α}
    (second : ∀ value, outcome = .ok value → Settles (next value) final stops)
    (fails : ∀ raised, outcome = .error raised → stops raised) :
    Settles (Raising.check outcome >>= next) final stops :=
  .bind (.check (fun _ => id) fails) second

/-- The rest of a run starts in the state that the step has left. -/
theorem SettlesFrom.bind {state : σ}
    (second : ∀ value middle, step state = (.ok value, middle) → SettlesFrom middle (next value) final stops)
    (fails : ∀ raised later, step state = (.error raised, later) → stops raised) :
    SettlesFrom state (step >>= next) final stops := by
  cases outcome : step state with
  | mk result middle =>
    cases result with
    | ok value =>
      rw [SettlesFrom, bind_ok outcome]
      exact second value middle outcome
    | error raised =>
      rw [SettlesFrom, bind_error outcome]
      refine ⟨fun value later same => ?_, fun other later same => ?_⟩
      · cases same
      · cases same
        exact fails raised _ outcome

theorem SettlesFrom.check_bind {state : σ} {outcome : Except ε α}
    (second : ∀ value, outcome = .ok value → SettlesFrom state (next value) final stops)
    (fails : ∀ raised, outcome = .error raised → stops raised) :
    SettlesFrom state (Raising.check outcome >>= next) final stops := by
  cases outcome with
  | ok value => exact second value rfl
  | error raised =>
    refine ⟨fun value later same => ?_, fun other later same => ?_⟩
    · cases same
    · cases same
      exact fails raised rfl

theorem Settles.if_pos {condition : Prop} [Decidable condition] {other : Raising ε σ α} (holds : condition)
    (settles : Settles step post stops) : Settles (if condition then step else other) post stops := by
  rw [ite_cond_eq_true _ _ (eq_true holds)]
  exact settles

theorem Settles.if_neg {condition : Prop} [Decidable condition] {other : Raising ε σ α} (fails : ¬ condition)
    (settles : Settles step post stops) : Settles (if condition then other else step) post stops := by
  rw [ite_cond_eq_false _ _ (eq_false fails)]
  exact settles

/-- A loop: the invariant is about the value and the items that are done. -/
theorem Settles.foldlM {body : α → β → Raising ε σ α} {items : List β} {start : α} (inv : α → List β → Prop)
    (begins : inv start [])
    (each : ∀ done item rest value, items = done ++ item :: rest → inv value done →
      Settles (body value item) (fun later => inv later (done ++ [item])) stops) :
    Settles (items.foldlM body start) (fun last => inv last items) stops := by
  suffices from_ : ∀ rest done value, items = done ++ rest → inv value done →
      Settles (rest.foldlM body value) (fun last => inv last items) stops from from_ items [] start rfl begins
  intro rest
  induction rest with
  | nil =>
    intro done value whole holds
    rw [List.append_nil] at whole
    exact .pure (whole ▸ holds)
  | cons item rest ih =>
    intro done value whole holds
    refine .bind (each done item rest value whole holds) fun later kept => ih (done ++ [item]) later ?_ kept
    rw [whole, List.append_assoc]
    rfl

end

/-- Two programs that do the same wherever an invariant holds, and keep it. -/
def Agrees (inv : σ → Prop) (step other : Raising ε σ α) : Prop :=
  ∀ state, inv state → step state = other state ∧ inv (other state).2

section

variable {inv : σ → Prop} {step other : Raising ε σ α}

theorem Agrees.pure (value : α) : Agrees inv (Pure.pure value : Raising ε σ α) (Pure.pure value) :=
  fun _ start => ⟨rfl, start⟩

theorem Agrees.raise (raised : ε) : Agrees inv (raise raised : Raising ε σ α) (Raising.raise raised) :=
  fun _ start => ⟨rfl, start⟩

theorem Agrees.check (outcome : Except ε α) : Agrees inv (check outcome : Raising ε σ α) (Raising.check outcome) :=
  fun _ start => ⟨rfl, start⟩

theorem Agrees.read (field : σ → α) : Agrees inv (read field : Raising ε σ α) (Raising.read field) :=
  fun _ start => ⟨rfl, start⟩

theorem Agrees.write {change : σ → σ} (keeps : ∀ state, inv state → inv (change state)) :
    Agrees inv (write change : Raising ε σ Unit) (Raising.write change) := fun state start => ⟨rfl, keeps state start⟩

/-- Steps that agree are followed by steps that agree. -/
theorem Agrees.bind {next others : α → Raising ε σ β} (first : Agrees inv step other)
    (second : ∀ value, Agrees inv (next value) (others value)) : Agrees inv (step >>= next) (other >>= others) := by
  intro state start
  obtain ⟨same, kept⟩ := first state start
  cases outcome : other state with
  | mk result later =>
    rw [outcome] at same kept
    cases result with
    | ok value =>
      rw [bind_ok same, bind_ok outcome]
      exact second value later kept
    | error raised =>
      rw [bind_error same, bind_error outcome]
      exact ⟨rfl, kept⟩

theorem Agrees.read_bind {γ : Type} {field : σ → γ} {next others : γ → Raising ε σ β}
    (second : ∀ state, inv state → Agrees inv (next (field state)) (others (field state))) :
    Agrees inv (Raising.read field >>= next) (Raising.read field >>= others) :=
  fun state start => second state start state start

/-- Loops agree when their turns do. -/
theorem Agrees.each {body bodies : β → Raising ε σ Unit} {items : List β}
    (turn : ∀ item, Agrees inv (body item) (bodies item)) :
    Agrees inv (each body items) (Raising.each bodies items) := by
  induction items with
  | nil => exact .pure ()
  | cons item rest ih => exact .bind (turn item) fun _ => ih

theorem Agrees.within {enter leave : σ → σ} {inner : σ → Prop} (agrees : Agrees inner step other)
    (enters : ∀ state, inv state → inner (enter state)) (leaves : ∀ state, inner state → inv (leave state)) :
    Agrees inv (Raising.write enter >>= fun _ => closing step leave)
      (Raising.write enter >>= fun _ => closing other leave) := by
  intro state start
  obtain ⟨same, kept⟩ := agrees (enter state) (enters state start)
  refine ⟨?_, leaves _ kept⟩
  change closing step leave (enter state) = closing other leave (enter state)
  rw [closing, closing, same]

end

section

variable [Preorder σ]

/-- The program never takes anything back, whether it raises or not. -/
def Grows (step : Raising ε σ α) : Prop := ∀ state, state ≤ (step state).2

/-- When the program leaves a state as it was: if it is quiet it succeeds without a change, if it stops it raises
before the first change. -/
structure Decides (target : σ) (step : Raising ε σ α) (post : α → Prop) (quiet stops : Prop) : Prop where
  grows : Grows step
  succeeds : quiet → ∀ state, AntisymmRel (· ≤ ·) state target →
    ∃ value, (step state).1 = .ok value ∧ post value ∧ AntisymmRel (· ≤ ·) (step state).2 target
  raises : stops → ∀ state, AntisymmRel (· ≤ ·) state target →
    ∃ raised, (step state).1 = .error raised ∧ AntisymmRel (· ≤ ·) (step state).2 target
  changes : ∀ state, AntisymmRel (· ≤ ·) state target → AntisymmRel (· ≤ ·) (step state).2 target → quiet ∨ stops

theorem Grows.pure (value : α) : Grows (Pure.pure value : Raising ε σ α) := fun _ => le_rfl

theorem Grows.read (field : σ → α) : Grows (read field : Raising ε σ α) := fun _ => le_rfl

theorem Grows.raise (raised : ε) : Grows (raise raised : Raising ε σ α) := fun _ => le_rfl

theorem Grows.demand (raised : ε) (found : Option α) : Grows (demand raised found : Raising ε σ α) := by
  cases found with
  | none => exact .raise raised
  | some value => exact .pure value

theorem Grows.write {change : σ → σ} (larger : ∀ state, state ≤ change state) :
    Grows (write change : Raising ε σ Unit) :=
  larger

/-- A program grows the state when its steps do. -/
theorem Grows.bind {step : Raising ε σ α} {next : α → Raising ε σ β} (first : Grows step)
    (second : ∀ value, Grows (next value)) : Grows (step >>= next) := by
  intro state
  cases outcome : step state with
  | mk result later =>
    have start : state ≤ later := by
      have grown := first state
      rwa [outcome] at grown
    cases result with
    | ok value =>
      rw [bind_ok outcome]
      exact start.trans (second value later)
    | error raised =>
      rw [bind_error outcome]
      exact start

/-- A loop grows the state when its turns do. -/
theorem Grows.each {body : β → Raising ε σ Unit} {items : List β} (grows : ∀ item ∈ items, Grows (body item)) :
    Grows (each body items) := by
  induction items with
  | nil => exact .pure ()
  | cons item rest ih =>
    exact .bind (grows item (.head _)) fun _ => ih fun other member => grows other (.tail _ member)

variable {target : σ}

theorem Decides.pure {post : α → Prop} {value : α} (holds : post value) :
    Decides target (Pure.pure value : Raising ε σ α) post True False where
  grows := .pure value
  succeeds _ _ same := ⟨value, rfl, holds, same⟩
  raises impossible := impossible.elim
  changes _ _ _ := Or.inl trivial

/-- A step that reads the same value of every state that is the same. -/
theorem Decides.reads {step : Raising ε σ α} {value : α} (grows : Grows step)
    (found : ∀ state, AntisymmRel (· ≤ ·) state target → step state = (.ok value, state)) :
    Decides target step (· = value) True False where
  grows := grows
  succeeds _ state same := by
    rw [found state same]
    exact ⟨value, rfl, rfl, same⟩
  raises impossible := impossible.elim
  changes _ _ _ := Or.inl trivial

/-- A write is quiet when it changes nothing. -/
theorem Decides.write {change : σ → σ} {quiet : Prop} (larger : ∀ state, state ≤ change state)
    (still : ∀ state, AntisymmRel (· ≤ ·) state target → (AntisymmRel (· ≤ ·) (change state) target ↔ quiet)) :
    Decides target (write change : Raising ε σ Unit) (fun _ => quiet) quiet False where
  grows := .write larger
  succeeds holds state same := ⟨(), rfl, holds, (still state same).mpr holds⟩
  raises impossible := impossible.elim
  changes state same kept := Or.inl ((still state same).mp kept)

/-- The rule of consequence. -/
theorem Decides.weaken {step : Raising ε σ α} {post weaker : α → Prop} {quiet stops other otherStops : Prop}
    (decides : Decides target step post quiet stops) (implies : ∀ value, post value → weaker value)
    (same : other ↔ quiet) (sameStops : otherStops ↔ stops) : Decides target step weaker other otherStops where
  grows := decides.grows
  succeeds holds state start := by
    obtain ⟨value, done, found, kept⟩ := decides.succeeds (same.mp holds) state start
    exact ⟨value, done, implies value found, kept⟩
  raises holds := decides.raises (sameStops.mp holds)
  changes state start kept := (decides.changes state start kept).imp same.mpr sameStops.mpr

theorem Decides.bind {step : Raising ε σ α} {next : α → Raising ε σ β} {post : α → Prop} {final : β → Prop}
    {quiet stops nextQuiet nextStops : Prop} (first : Decides target step post quiet stops)
    (grows : ∀ value, Grows (next value))
    (second : ∀ value, post value → Decides target (next value) final nextQuiet nextStops) :
    Decides target (step >>= next) final (quiet ∧ nextQuiet) (stops ∨ quiet ∧ nextStops) where
  grows := first.grows.bind grows
  succeeds holds state same := by
    obtain ⟨value, done, found, kept⟩ := first.succeeds holds.1 state same
    rw [bind_ok (Prod.ext done rfl : step state = (.ok value, (step state).2))]
    exact (second value found).succeeds holds.2 _ kept
  raises holds state same := by
    rcases holds with now | ⟨passed, later⟩
    · obtain ⟨raised, failed, kept⟩ := first.raises now state same
      rw [bind_error (Prod.ext failed rfl : step state = (.error raised, (step state).2))]
      exact ⟨raised, rfl, kept⟩
    · obtain ⟨value, done, found, kept⟩ := first.succeeds passed state same
      rw [bind_ok (Prod.ext done rfl : step state = (.ok value, (step state).2))]
      exact (second value found).raises later _ kept
  changes state same kept := by
    cases outcome : step state with
    | mk result later =>
      have start : state ≤ later := by
        have grown := first.grows state
        rwa [outcome] at grown
      cases result with
      | error raised =>
        rw [bind_error outcome] at kept
        rcases first.changes state same (by rwa [outcome]) with passed | now
        · obtain ⟨value, done, -, -⟩ := first.succeeds passed state same
          rw [outcome] at done
          cases done
        · exact Or.inl now |> Or.inr
      | ok value =>
        rw [bind_ok outcome] at kept
        -- nothing is taken back, so the middle state lies between two that are the same
        have between : AntisymmRel (· ≤ ·) later target :=
          ⟨(grows value later).trans kept.1, same.2.trans start⟩
        rcases first.changes state same (by rwa [outcome]) with passed | now
        · obtain ⟨found, done, holds, -⟩ := first.succeeds passed state same
          rw [outcome] at done
          cases done
          exact ((second value holds).changes later between kept).imp (⟨passed, ·⟩) fun last => Or.inr ⟨passed, last⟩
        · obtain ⟨raised, failed, -⟩ := first.raises now state same
          rw [outcome] at failed
          cases failed

/-- What is read first decides nothing. -/
theorem Decides.bind_reads {step : Raising ε σ α} {next : α → Raising ε σ β} {final : β → Prop} {value : α}
    {quiet stops : Prop} (first : Decides target step (· = value) True False) (grows : ∀ value, Grows (next value))
    (second : Decides target (next value) final quiet stops) : Decides target (step >>= next) final quiet stops := by
  refine (first.bind grows fun other same => ?_ : Decides target (step >>= next) final (True ∧ quiet)
    (False ∨ True ∧ stops)).weaken
    (fun _ => id) (by rw [true_and]) (by rw [true_and, false_or])
  subst same
  exact second

/-- Neither does a part that never changes anything. -/
theorem Decides.bind_silent {step : Raising ε σ α} {next : α → Raising ε σ β} {post : α → Prop} {final : β → Prop}
    {quiet stops : Prop} (first : Decides target step post quiet stops) (grows : ∀ value, Grows (next value))
    (second : ∀ value, post value → Decides target (next value) final True False) :
    Decides target (step >>= next) final quiet stops :=
  (first.bind grows second).weaken (fun _ => id) (by rw [and_true]) (by rw [and_false, or_false])

/-- Two steps that never stop are quiet when both are. -/
theorem Decides.seq {step : Raising ε σ α} {next : Raising ε σ β} {post : α → Prop} {final : β → Prop}
    {quiet nextQuiet : Prop} (first : Decides target step post quiet False)
    (second : Decides target next final nextQuiet False) :
    Decides target (step >>= fun _ => next) final (quiet ∧ nextQuiet) False :=
  (first.bind (fun _ => second.grows) fun _ _ => second).weaken (fun _ => id) Iff.rfl (by rw [and_false, or_false])

/-- A loop is quiet when every turn is, and stops when its first turn that is not quiet does. -/
theorem Decides.each {body : β → Raising ε σ Unit} {quiet stops : β → Prop} {items : List β}
    (decides : ∀ item ∈ items, Decides target (body item) (fun _ => True) (quiet item) (stops item)) :
    Decides target (each body items) (fun _ => True) (∀ item ∈ items, quiet item) (Halts quiet stops items) := by
  induction items with
  | nil => exact Decides.weaken (.pure trivial) (fun _ => id) (by simp) Iff.rfl
  | cons item rest ih =>
    have tail := ih fun other member => decides other (.tail _ member)
    exact Decides.weaken (.bind (decides item (.head _)) (fun _ => tail.grows) fun _ _ => tail) (fun _ => id)
      List.forall_mem_cons Iff.rfl

/-- A loop that never stops. -/
theorem Decides.each_silent {body : β → Raising ε σ Unit} {quiet : β → Prop} {items : List β}
    (decides : ∀ item ∈ items, Decides target (body item) (fun _ => True) (quiet item) False) :
    Decides target (Raising.each body items) (fun _ => True) (∀ item ∈ items, quiet item) False := by
  refine (Decides.each decides).weaken (fun _ => id) Iff.rfl ?_
  clear decides
  induction items with
  | nil => exact Iff.rfl
  | cons item rest ih => rw [Halts, ← ih, and_false, or_false]

/-- A run that raises leaves the state as it was when the program stops, and only then. -/
theorem Decides.raises_iff {step : Raising ε σ α} {post : α → Prop} {quiet stops : Prop}
    (decides : Decides target step post quiet stops) :
    (∃ raised, (step target).1 = .error raised) ∧ AntisymmRel (· ≤ ·) (step target).2 target ↔ stops := by
  constructor
  · rintro ⟨⟨raised, failed⟩, kept⟩
    rcases decides.changes target ⟨le_rfl, le_rfl⟩ kept with passed | now
    · obtain ⟨value, done, -, -⟩ := decides.succeeds passed target ⟨le_rfl, le_rfl⟩
      rw [failed] at done
      cases done
    · exact now
  · intro now
    obtain ⟨raised, failed, kept⟩ := decides.raises now target ⟨le_rfl, le_rfl⟩
    exact ⟨⟨raised, failed⟩, kept⟩

end

end Raising
