import TaskMonitor.Proofs.Json.Taken

/-! Places in a text where a tree stands as the value of a field, as an element, or as the content
of a variant. What is read with another tree in a place depends on the reader of that place alone. -/

set_option autoImplicit false

namespace TaskMonitor.Json

variable {σ α β γ : Type}

/-- `around` puts trees in a place of a text that is read with some tree there. With another one
that is not `null` it is read if the inner reader takes that tree, and `get` tells what it gives. -/
def Guides (outer : Reader α) (inner : Reader β) (around : Tree → Tree) (get : α → Option β) :
    Prop :=
  ∀ ⦃start : Tree⦄ ⦃value : α⦄, Accepts outer (around start) value →
    ∀ ⦃tree : Tree⦄, tree ≠ .null →
      (∀ ⦃part : β⦄, Accepts inner tree part →
        ∃ other, Accepts outer (around tree) other ∧ get other = some part) ∧
      ∀ ⦃other : α⦄, Accepts outer (around tree) other → ∃ part, Accepts inner tree part

theorem Guides.within {outer : Reader α} {middle : Reader β} {inner : Reader γ}
    {around around' : Tree → Tree} {get : α → Option β} {get' : β → Option γ}
    (first : Guides outer middle around get) (second : Guides middle inner around' get')
    (solid : ∀ tree, around' tree ≠ .null) :
    Guides outer inner (fun tree => around (around' tree)) fun value => (get value).bind get' := by
  intro start value accepts tree some
  -- What stands in the outer place at first shows that the middle reader takes it.
  obtain ⟨part, found⟩ := (first accepts (solid start)).2 accepts
  constructor
  · intro innermost given
    obtain ⟨between, given, got⟩ := (second found some).1 given
    obtain ⟨other, given, got'⟩ := (first accepts (solid tree)).1 given
    exact ⟨other, given, by simp only [got', Option.bind_some, got]⟩
  · intro other given
    obtain ⟨between, given⟩ := (first accepts (solid tree)).2 given
    exact (second found some).2 given

/-! ## Kinds of places -/

inductive InObject (name : String) : (Tree → Tree) → Prop where
  | mk {front back : List (Member Tree)} {key : Padded (List Piece)} (inner before after : Blanks) :
      (meaning key.value).map String.ofList = some name →
      InObject name fun tree => .object inner (front ++ ⟨key, before, tree, after⟩ :: back)

inductive InList (index : Nat) : (Tree → Tree) → Prop where
  | mk {front back : List (Padded Tree)} (inner before after : Blanks) : front.length = index →
      InList index fun tree => .list inner (front ++ ⟨before, tree, after⟩ :: back)

inductive InRecord (index : Nat) (name : String) (around : Tree → Tree) : Prop where
  | member : InObject name around → InRecord index name around
  | element : InList index around → InRecord index name around

inductive InVariant (name : String) : (Tree → Tree) → Prop where
  | mk {key : Padded (List Piece)} (inner before after : Blanks) :
      (meaning key.value).map String.ofList = some name →
      InVariant name fun tree => .object inner [⟨key, before, tree, after⟩]

theorem InList.solid {index : Nat} {around : Tree → Tree} (place : InList index around)
    (tree : Tree) : around tree ≠ .null := by
  cases place
  nofun

theorem InRecord.solid {index : Nat} {name : String} {around : Tree → Tree}
    (place : InRecord index name around) (tree : Tree) : around tree ≠ .null := by
  rcases place with place | place <;> cases place <;> nofun

theorem InVariant.solid {name : String} {around : Tree → Tree} (place : InVariant name around)
    (tree : Tree) : around tree ≠ .null := by
  cases place
  nofun

theorem InList.guides {element : Reader α} (takes : Takes element) {index : Nat}
    {around : Tree → Tree} (place : InList index around) :
    Guides (list element) element around fun values => values[index]? := by
  intro start values accepts tree some
  obtain @⟨front, back, inner, before, after, rfl⟩ := place
  obtain ⟨first, value, last, rfl, each, _, others⟩ := takes.split accepts
  constructor
  · intro part given
    refine ⟨first ++ part :: last, ?_, ?_⟩
    · exact accepts_list (List.rel_append each (.cons given others)) inner
    · rw [← each.length_eq]
      simp
  · intro other given
    obtain ⟨_, part, _, _, _, found, _⟩ := takes.split given
    exact ⟨part, found⟩

theorem InVariant.guides {named : String → Option (Variant α)} {name : String} {bare : Option α}
    {reader : Reader β} {make : β → α} {get : α → Option β} {around : Tree → Tree}
    (place : InVariant name around) (each : Contents named) (takes : Takes reader)
    (known : named name = some ⟨bare, reader >>= fun part => pure (make part)⟩)
    (back : ∀ part, get (make part) = some part) : Guides (variant named) reader around get := by
  intro start value accepts tree some
  obtain @⟨key, inner, before, after, own⟩ := place
  constructor
  · intro part given
    have named : Member.name ⟨key, before, tree, after⟩ = Option.some name := own
    exact ⟨make part, accepts_variant known named (given.map make) inner, back part⟩
  · intro other given
    obtain ⟨_, found⟩ := given.of_single each known ⟨inner, _, _, rfl, List.mem_cons_self, own, rfl⟩
    obtain ⟨part, found, _⟩ := takes.of_map found
    exact ⟨part, found⟩

/-! ## Fields of records -/

/-- Unless it is `null`, a tree is given as it is read by another reader. -/
def Wraps (wrapped : Reader (Option γ)) (reader : Reader β) (make : β → γ) : Prop :=
  ∀ ⦃tree : Tree⦄, tree ≠ .null → ∀ ⦃value : Option γ⦄,
    Accepts wrapped tree value ↔ ∃ part, Accepts reader tree part ∧ value = some (make part)

theorem Takes.wraps_nullable {reader : Reader α} (takes : Takes reader) :
    Wraps (Json.nullable reader) reader id := by
  intro tree given value
  refine ⟨takes.of_nullable given, ?_⟩
  rintro ⟨part, accepts, rfl⟩
  exact accepts.nullable given

theorem Takes.wraps_present {reader : Reader α} (takes : Takes reader) :
    Wraps (Json.present reader) reader id := by
  intro tree _ value
  constructor
  · intro accepts
    obtain ⟨part, accepts, same⟩ := takes.of_map accepts
    exact ⟨part, accepts, same.symm⟩
  · rintro ⟨part, accepts, rfl⟩
    exact accepts.present

theorem Wraps.of_map {wrapped : Reader (Option γ)} {reader : Reader β} {make : β → γ}
    (wraps : Wraps wrapped (reader >>= fun part => pure (make part)) id) (takes : Takes reader) :
    Wraps wrapped reader make := by
  intro tree given value
  rw [wraps given]
  constructor
  · rintro ⟨_, made, rfl⟩
    obtain ⟨part, accepts, rfl⟩ := takes.of_map made
    exact ⟨part, accepts, rfl⟩
  · rintro ⟨part, accepts, rfl⟩
    exact ⟨make part, accepts.map make, rfl⟩

structure Field.Puts (field : Field σ) (reader : Reader β) (put : β → σ → σ) : Prop where
  gives {tree : Tree} {part : β} : tree ≠ .null → Accepts reader tree part →
    ∀ values, Accepts (field.read values) tree (put part values)
  given {tree : Tree} {values next : σ} : tree ≠ .null → Accepts (field.read values) tree next →
    ∃ part, Accepts reader tree part
  again {tree : Tree} {values next : σ} : Accepts (field.read values) tree next →
    ∀ part, put part next = put part values

/-- What a field is read as does not depend on what is put elsewhere. -/
def Field.Apart (field : Field σ) (put : β → σ → σ) : Prop :=
  ∀ ⦃tree : Tree⦄ ⦃values next : σ⦄, Accepts (field.read values) tree next →
    ∀ part, Accepts (field.read (put part values)) tree (put part next)

theorem Wraps.puts {wrapped : Reader (Option γ)} {reader : Reader β} {make : β → γ}
    (wraps : Wraps wrapped reader make) (takes : Takes wrapped) {field : Field σ}
    {fill : Option γ → σ → σ} {put : β → σ → σ}
    (read : ∀ values, field.read values = wrapped >>= fun part => pure (fill part values))
    (same : ∀ part values, fill (some (make part)) values = put part values)
    (again : ∀ part other values, put part (fill other values) = put part values) :
    field.Puts reader put where
  gives given accepts values := by
    rw [read, ← same]
    exact ((wraps given).mpr ⟨_, accepts, rfl⟩).map fun part => fill part values
  given given accepts := by
    rw [read] at accepts
    obtain ⟨_, accepts, _⟩ := takes.of_map accepts
    obtain ⟨part, accepts, _⟩ := (wraps given).mp accepts
    exact ⟨part, accepts⟩
  again accepts part := by
    rw [read] at accepts
    obtain ⟨other, _, rfl⟩ := takes.of_map accepts
    exact again _ _ _

theorem Takes.apart {reader : Reader γ} (takes : Takes reader) {field : Field σ}
    {put' : γ → σ → σ} {put : β → σ → σ}
    (read : ∀ values, field.read values = reader >>= fun part => pure (put' part values))
    (apart : ∀ other part values, put' other (put part values) = put part (put' other values)) :
    field.Apart put := by
  intro tree values next accepts part
  rw [read] at accepts ⊢
  obtain ⟨other, found, rfl⟩ := takes.of_map accepts
  rw [← apart]
  exact found.map fun other => put' other (put part values)

section

variable {fields : List (Field σ)} {field : Field σ} {reader : Reader β} {put : β → σ → σ}
  {values final : σ}

/-- What has been read of a field goes through the later members unchanged. -/
theorem Gathers.shift {seen : List String} {members : List (Member Tree)}
    (gathers : Gathers fields seen members values final) {name : String} (read : name ∈ seen)
    (apart : ∀ field ∈ fields, field.key ≠ name → field.Apart put) (part : β) :
    Gathers fields seen members (put part values) (put part final) := by
  induction gathers with
  | nil => exact .nil
  | @known seen member members other field values next final own known unseen accepts _ ih =>
    have key : field.key = other := by simpa using List.find?_some known
    have differs : field.key ≠ name := fun same => unseen (key ▸ same ▸ read)
    have apart := apart field (List.mem_of_find?_eq_some known) differs
    exact .known own known unseen (apart accepts part) (ih (List.mem_cons_of_mem _ read))
  | other own unknown _ ih => exact .other own unknown (ih read)

theorem Gathers.replace {seen : List String} {front back : List (Member Tree)}
    {key : Padded (List Piece)} {before after : Blanks} {start tree : Tree}
    (gathers : Gathers fields seen (front ++ ⟨key, before, start, after⟩ :: back) values final)
    (own : (meaning key.value).map String.ofList = some field.key)
    (known : fields.find? (·.key = field.key) = some field) (puts : field.Puts reader put)
    (apart : ∀ other ∈ fields, other.key ≠ field.key → other.Apart put) (given : tree ≠ .null)
    {part : β} (accepts : Accepts reader tree part) :
    Gathers fields seen (front ++ ⟨key, before, tree, after⟩ :: back) values (put part final) := by
  induction front generalizing seen values with
  | nil =>
    rcases gathers with _ | ⟨own', known', unseen, first, later⟩ | ⟨own', unknown, _⟩
    · cases own.symm.trans own'
      cases known.symm.trans known'
      refine .known own known unseen (puts.gives given accepts values) ?_
      -- The later members were read after the old value, which is overwritten by the new one.
      rw [← puts.again first]
      exact later.shift List.mem_cons_self apart part
    · cases own.symm.trans own'
      cases known.symm.trans unknown
  | cons member front ih =>
    rcases gathers with _ | ⟨own', known', unseen, first, later⟩ | ⟨own', unknown, later⟩
    · exact .known own' known' unseen first (ih later)
    · exact .other own' unknown (ih later)

theorem Lines.shift {elements : List (Padded Tree)} (lines : Lines fields elements values final)
    (apart : ∀ field ∈ fields, field.Apart put) (part : β) :
    Lines fields elements (put part values) (put part final) := by
  induction lines with
  | nil => exact .nil
  | cons accepts _ ih =>
    obtain ⟨own, others⟩ := List.forall_mem_cons.mp apart
    exact .cons (own accepts part) (ih others)

theorem Lines.replace {front back : List (Padded Tree)} {before after : Blanks}
    {start tree : Tree}
    (lines : Lines fields (front ++ ⟨before, start, after⟩ :: back) values final)
    (placed : fields[front.length]? = some field) (names : (fields.map (·.key)).Nodup)
    (puts : field.Puts reader put)
    (apart : ∀ other ∈ fields, other.key ≠ field.key → other.Apart put) (given : tree ≠ .null)
    {part : β} (accepts : Accepts reader tree part) :
    Lines fields (front ++ ⟨before, tree, after⟩ :: back) values (put part final) := by
  induction front generalizing fields values with
  | nil =>
    rcases lines with _ | ⟨first, later⟩
    cases placed
    obtain ⟨differs, _⟩ := List.nodup_cons.mp names
    refine .cons (puts.gives given accepts values) ?_
    rw [← puts.again first]
    refine later.shift (fun other among => ?_) part
    exact apart other (List.mem_cons_of_mem _ among)
      fun same => differs (List.mem_map.mpr ⟨other, among, same⟩)
  | cons padded front ih =>
    rcases lines with _ | ⟨first, later⟩
    exact .cons first (ih later placed (List.nodup_cons.mp names).2
      fun other among => apart other (List.mem_cons_of_mem _ among))

theorem Lines.reads {front back : List (Padded Tree)} {padded : Padded Tree}
    (lines : Lines fields (front ++ padded :: back) values final)
    (placed : fields[front.length]? = some field) :
    ∃ values next, Accepts (field.read values) padded.value next := by
  induction front generalizing fields values with
  | nil =>
    rcases lines with _ | ⟨first, later⟩
    cases placed
    exact ⟨_, _, first⟩
  | cons padded front ih =>
    rcases lines with _ | ⟨first, later⟩
    exact ih later placed

end

/-- A field of a record, whose value the record has when it is finished. -/
structure Record.Keeps (record : Record σ α) (index : Nat) (field : Field σ) (reader : Reader β)
    (put : β → σ → σ) (get : α → Option β) : Prop where
  takes : ∀ other ∈ record.fields, ∀ values, Takes (other.read values)
  placed : record.fields[index]? = some field
  names : (record.fields.map (·.key)).Nodup
  puts : field.Puts reader put
  apart : ∀ other ∈ record.fields, other.key ≠ field.key → other.Apart put
  finish {tree : Tree} {part : β} {values : σ} {value : α} : Accepts reader tree part →
    record.finish values = some value →
      ∃ other, record.finish (put part values) = some other ∧ get other = some part

theorem find?_key {fields : List (Field σ)} (names : (fields.map (·.key)).Nodup) {field : Field σ}
    (among : field ∈ fields) : fields.find? (·.key = field.key) = some field := by
  cases found : fields.find? (·.key = field.key) with
  | none => exact absurd (decide_eq_true rfl) (List.find?_eq_none.mp found field among)
  | some other =>
    have same : other.key = field.key := by simpa using List.find?_some found
    rw [List.inj_on_of_nodup_map names (List.mem_of_find?_eq_some found) among same]

theorem Record.Keeps.guides {record : Record σ α} {index : Nat} {field : Field σ}
    {reader : Reader β} {put : β → σ → σ} {get : α → Option β}
    (keeps : record.Keeps index field reader put get) {around : Tree → Tree}
    (place : InRecord index field.key around) : Guides record.read reader around get := by
  have known := find?_key keeps.names (List.mem_of_getElem? keeps.placed)
  intro start value accepts tree some
  obtain ⟨final, holds, finish⟩ := accepts.holds keeps.takes
  rcases place with @⟨front, back, key, inner, before, after, own⟩ |
    @⟨front, back, inner, before, after, same⟩
  · constructor
    · intro part given
      obtain ⟨other, finished, got⟩ := keeps.finish given finish
      cases holds with
      | object _ gathers =>
        have gathers := gathers.replace own known keeps.puts keeps.apart some given
        exact ⟨other, (Record.Holds.object inner gathers).accepts finished, got⟩
    · intro other given
      obtain ⟨_, holds, _⟩ := given.holds keeps.takes
      cases holds with
      | object _ gathers =>
        obtain ⟨_, _, found⟩ := gathers.reads (List.mem_append_right _ List.mem_cons_self) own known
        exact keeps.puts.given some found
  · have placed := keeps.placed
    rw [← same] at placed
    constructor
    · intro part given
      obtain ⟨other, finished, got⟩ := keeps.finish given finish
      cases holds with
      | list _ lines =>
        have lines := lines.replace placed keeps.names keeps.puts keeps.apart some given
        exact ⟨other, (Record.Holds.list inner lines).accepts finished, got⟩
    · intro other given
      obtain ⟨_, holds, _⟩ := given.holds keeps.takes
      cases holds with
      | list _ lines =>
        obtain ⟨_, _, found⟩ := lines.reads placed
        exact keeps.puts.given some found

/-! ## Integers -/

/-- A text that is decoded with some tree in a place is decoded with each integer of a range there,
which is then what `get` finds, and with no integer beyond the range. -/
def Exact (decode : Bytes → Except Fault α) (around : Tree → Tree) (least most : Int)
    (get : α → Option Int) : Prop :=
  ∀ ⦃before after : Blanks⦄ ⦃start : Tree⦄ ⦃value : α⦄,
    decode (before.bytes ++ ((around start).bytes ++ after.bytes)) = .ok value →
    ∀ ⦃decimal : Decimal⦄, decimal.Whole →
      (least ≤ decimal.integer ∧ decimal.integer ≤ most →
        ∃ other, decode (before.bytes ++ ((around (.number decimal)).bytes ++ after.bytes)) =
          .ok other ∧ get other = some decimal.integer) ∧
      (¬ (least ≤ decimal.integer ∧ decimal.integer ≤ most) →
        ∃ fault, decode (before.bytes ++ ((around (.number decimal)).bytes ++ after.bytes)) =
          .error fault)

theorem Guides.exact {reader : Reader α} {around : Tree → Tree} {least most : Int}
    {get : α → Option Int} (guides : Guides reader (integer least most) around get)
    (takes : Takes reader) (low : Int64.minValue.toInt ≤ least) (high : most < UInt64.size) :
    Exact (Json.read reader) around least most get := by
  intro before after start value found decimal whole
  obtain ⟨given, refused⟩ := @guides _ _ (takes.read found) (.number decimal) nofun
  -- The inner reader alone decides, and takes of all integers those of its range.
  constructor
  · intro within
    have range : InRange decimal.integer := ⟨by omega, by omega⟩
    obtain ⟨other, accepts, got⟩ :=
      given (accepts_integer_iff.mpr ⟨⟨decimal, rfl, whole, rfl⟩, range, within⟩)
    exact ⟨other, accepts.read before after, got⟩
  · intro beyond
    cases decoded : Json.read reader _ with
    | error fault => exact ⟨fault, rfl⟩
    | ok other =>
      obtain ⟨n, accepts⟩ := refused (takes.read decoded)
      obtain ⟨⟨_, same, _, rfl⟩, _, within⟩ := accepts_integer_iff.mp accepts
      cases same
      exact absurd within beyond

end TaskMonitor.Json
