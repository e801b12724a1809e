import TaskMonitor.Proofs.Json.Written

/-! Readers taken apart. A composed reader finds a value if each of its parts does, and the loops
over elements and members begin each round alike. -/

set_option autoImplicit false

namespace TaskMonitor.Json

variable {σ α β : Type}

theorem bind_eq_ok {reader : Reader α} {next : α → Reader β} {text : Bytes} {out : β × Bytes} :
    (reader >>= next) text = .ok out ↔
      ∃ value rest, reader text = .ok (value, rest) ∧ next value rest = .ok out := by
  change Except.bind (reader text) _ = _ ↔ _
  cases found : reader text with
  | error fault => simp [Except.bind]
  | ok pair =>
    obtain ⟨value, rest⟩ := pair
    simp [Except.bind]

theorem pure_eq_ok {value found : α} {text rest : Bytes} :
    (pure value : Reader α) text = .ok (found, rest) ↔ value = found ∧ text = rest := by
  change Except.ok (value, text) = _ ↔ _
  simp

@[simp] theorem throw_ne_ok {fault : Fault} {text : Bytes} {out : α × Bytes} :
    (throw fault : Reader α) text ≠ .ok out := by
  intro found
  cases found

theorem bind_error {reader : Reader α} {text : Bytes} {fault : Fault}
    (found : reader text = .error fault) (next : α → Reader β) :
    (reader >>= next) text = .error fault := by
  change Except.bind (reader text) _ = _
  rw [found]
  rfl

theorem read_eq_ok {reader : Reader α} {text : Bytes} {value : α} :
    read reader text = .ok value ↔
      ∃ rest, reader text = .ok (value, rest) ∧ skipBlanks rest = [] := by
  simp only [read, bind, Except.bind]
  cases found : reader text with
  | error fault => simp
  | ok pair =>
    obtain ⟨other, rest⟩ := pair
    by_cases blank : skipBlanks rest = [] <;> simp [blank, pure, Except.pure]

theorem ite_bind (condition : Prop) [Decidable condition] (first second : Reader α)
    (next : α → Reader β) :
    ((if condition then first else second) >>= next) =
      if condition then first >>= next else second >>= next := by
  split <;> rfl

/-! ## Rounds of a loop -/

/-- Whether a further element or member comes. What stands before it is read. -/
def goesOn (close : Byte) (first : Bool) : Reader Bool := do
  if (← peek) = close then
    drop
    return false
  else
    separator close first
    return true

theorem round_eq_ok {further : Reader Bool} {next : Reader α} {done final : α}
    {text rest : Bytes} :
    (do if ← further then next else return done : Reader α) text = .ok (final, rest) ↔
      further text = .ok (false, rest) ∧ done = final ∨
        ∃ left, further text = .ok (true, left) ∧ next left = .ok (final, rest) := by
  rw [bind_eq_ok]
  constructor
  · rintro ⟨_ | _, left, round, more⟩
    · obtain ⟨rfl, rfl⟩ := pure_eq_ok.mp more
      exact .inl ⟨round, rfl⟩
    · exact .inr ⟨left, round, more⟩
  · rintro (⟨round, rfl⟩ | ⟨left, round, more⟩)
    · exact ⟨false, rest, round, rfl⟩
    · exact ⟨true, left, round, more⟩

theorem elementsOnto_succ (element : Reader α) (fuel : Nat) (seen : List α) :
    elementsOnto element (fuel + 1) seen = do
      if ← goesOn Token.closeList seen.isEmpty then
        let value ← element
        elementsOnto element fuel (value :: seen)
      else return seen.reverse := by
  simp [elementsOnto, goesOn, ite_bind]

theorem elementsOnto_eq_ok {element : Reader α} {fuel : Nat} {seen values : List α}
    {text rest : Bytes} :
    elementsOnto element (fuel + 1) seen text = .ok (values, rest) ↔
      goesOn Token.closeList seen.isEmpty text = .ok (false, rest) ∧ seen.reverse = values ∨
        ∃ left value later, goesOn Token.closeList seen.isEmpty text = .ok (true, left) ∧
          element left = .ok (value, later) ∧
          elementsOnto element fuel (value :: seen) later = .ok (values, rest) := by
  rw [elementsOnto_succ, round_eq_ok]
  simp only [bind_eq_ok, exists_and_left]

namespace Record

def nextKey (first : Bool) : Reader (Option String) := do
  if ← goesOn Token.closeObject first then
    expect Token.quote
    return some (← quoted)
  else return none

def member (fields : List (Field σ)) (seen : List String) (values : σ) (key : String) :
    Reader (List String × σ) :=
  match fields.find? (·.key = key) with
  | some field => do
    if key ∈ seen then throw .mismatch
    expect Token.colon
    let values ← field.read values
    return (key :: seen, values)
  | none => do
    expect Token.colon
    ignored
    return (seen, values)

theorem members_succ (fields : List (Field σ)) (fuel : Nat) (first : Bool) (seen : List String)
    (values : σ) :
    members fields (fuel + 1) first seen values = (do
      match ← nextKey first with
      | none => return values
      | some key =>
        let (seen, values) ← member fields seen values key
        members fields fuel false seen values) := by
  simp only [members, nextKey, goesOn, member, ite_bind, bind_assoc, pure_bind]
  congr 1
  funext byte
  split
  · rfl
  · simp only [↓reduceIte]
    congr 1
    funext _
    congr 1
    funext _
    congr 1
    funext key
    cases fields.find? (·.key = key) with
    | none => simp
    | some field => by_cases before : key ∈ seen <;> simp [before]

theorem member_eq_ok {fields : List (Field σ)} {seen later : List String} {values next : σ}
    {key : String} {text rest : Bytes} :
    member fields seen values key text = .ok ((later, next), rest) ↔
      (∃ field left, fields.find? (·.key = key) = some field ∧ key ∉ seen ∧
        expect Token.colon text = .ok ((), left) ∧ field.read values left = .ok (next, rest) ∧
        later = key :: seen) ∨
      ∃ left, fields.find? (·.key = key) = none ∧ expect Token.colon text = .ok ((), left) ∧
        ignored left = .ok ((), rest) ∧ later = seen ∧ next = values := by
  unfold member
  cases fields.find? (·.key = key) with
  | none =>
    simp only [bind_eq_ok, pure_eq_ok, Prod.mk.injEq]
    constructor
    · rintro ⟨_, left, colon, _, _, passed, ⟨rfl, rfl⟩, rfl⟩
      exact .inr ⟨left, trivial, colon, passed, rfl, rfl⟩
    · rintro (⟨_, _, known, _⟩ | ⟨left, _, colon, passed, rfl, rfl⟩)
      · cases known
      · exact ⟨(), left, colon, (), rest, passed, ⟨rfl, rfl⟩, rfl⟩
  | some field =>
    by_cases before : key ∈ seen
    · simp [before, bind_eq_ok]
    · simp only [before, ↓reduceIte, bind_eq_ok, pure_eq_ok, Prod.mk.injEq]
      constructor
      · rintro ⟨_, left, colon, _, _, found, ⟨rfl, rfl⟩, rfl⟩
        exact .inl ⟨field, left, rfl, not_false, colon, found, rfl⟩
      · rintro (⟨_, left, known, _, colon, found, rfl⟩ | ⟨_, known, _⟩)
        · cases known
          exact ⟨(), left, colon, next, rest, found, ⟨rfl, rfl⟩, rfl⟩
        · cases known

theorem members_eq_ok {fields : List (Field σ)} {fuel : Nat} {first : Bool} {seen : List String}
    {values final : σ} {text rest : Bytes} :
    members fields (fuel + 1) first seen values text = .ok (final, rest) ↔
      nextKey first text = .ok (none, rest) ∧ values = final ∨
        ∃ key left seen' next later, nextKey first text = .ok (some key, left) ∧
          member fields seen values key left = .ok ((seen', next), later) ∧
          members fields fuel false seen' next later = .ok (final, rest) := by
  rw [members_succ, bind_eq_ok]
  constructor
  · rintro ⟨_ | key, left, round, more⟩
    · obtain ⟨rfl, rfl⟩ := pure_eq_ok.mp more
      exact .inl ⟨round, rfl⟩
    · obtain ⟨⟨seen', next⟩, later, found, others⟩ := bind_eq_ok.mp more
      exact .inr ⟨key, left, seen', next, later, round, found, others⟩
  · rintro (⟨round, rfl⟩ | ⟨key, left, seen', next, later, round, found, others⟩)
    · exact ⟨none, rest, round, rfl⟩
    · exact ⟨some key, left, round, bind_eq_ok.mpr ⟨(seen', next), later, found, others⟩⟩

theorem elements_cons (first : Bool) (field : Field σ) (fields : List (Field σ)) (values : σ) :
    elements first (field :: fields) values = do
      if ← goesOn Token.closeList first then
        let values ← field.read values
        elements false fields values
      else return values := by
  simp [elements, goesOn, ite_bind]

theorem elements_eq_ok {first : Bool} {field : Field σ} {fields : List (Field σ)}
    {values final : σ} {text rest : Bytes} :
    elements first (field :: fields) values text = .ok (final, rest) ↔
      goesOn Token.closeList first text = .ok (false, rest) ∧ values = final ∨
        ∃ left next later, goesOn Token.closeList first text = .ok (true, left) ∧
          field.read values left = .ok (next, later) ∧
          elements false fields next later = .ok (final, rest) := by
  rw [elements_cons, round_eq_ok]
  simp only [bind_eq_ok, exists_and_left]

theorem read_eq_ok {record : Record σ α} {text rest : Bytes} {value : α} :
    record.read text = .ok (value, rest) ↔
      ∃ parts, record.body text = .ok (parts, rest) ∧ record.finish parts = some value := by
  rw [Record.read, bind_eq_ok]
  constructor
  · rintro ⟨parts, left, found, made⟩
    cases whole : record.finish parts with
    | none =>
      rw [whole] at made
      exact absurd made throw_ne_ok
    | some finished =>
      rw [whole] at made
      obtain ⟨rfl, rfl⟩ := pure_eq_ok.mp made
      exact ⟨parts, found, whole⟩
  · rintro ⟨parts, found, made⟩
    exact ⟨parts, rest, found, by rw [made]; rfl⟩

end Record

end TaskMonitor.Json
