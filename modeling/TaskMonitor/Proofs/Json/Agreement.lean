import Mathlib.Data.List.DropRight
import Mathlib.Data.List.Forall2
import TaskMonitor.Proofs.Json.Step

/-! A strict reader beside a lenient one that takes more texts. What the lenient reader makes of a
text agrees with the value of the strict one, or it is lost: no later reading can mend it. -/

set_option autoImplicit false

namespace TaskMonitor.Json

variable {σ τ σ' τ' α β : Type}

/-- The lenient reader takes what the strict one takes, and the same bytes of it. The strict one
takes all else that the lenient one takes, unless the outcome is lost. -/
structure Follows (same : σ → τ → Prop) (lost : τ → Prop) (strict : Reader σ)
    (lenient : Reader τ) : Prop where
  takes {text rest : Bytes} {value : σ} : strict text = .ok (value, rest) →
    ∃ raw, lenient text = .ok (raw, rest) ∧ same value raw
  gives {text rest : Bytes} {raw : τ} : lenient text = .ok (raw, rest) →
    (∃ value, strict text = .ok (value, rest) ∧ same value raw) ∨ lost raw

theorem Follows.self (reader : Reader α) : Follows Eq (fun _ => False) reader reader where
  takes found := ⟨_, found, rfl⟩
  gives found := .inl ⟨_, found, rfl⟩

theorem Follows.refused {same : σ → τ → Prop} {lost : τ → Prop} {strict : Reader σ}
    {lenient : Reader τ} (first : ∀ text out, strict text ≠ .ok out)
    (second : ∀ text out, lenient text ≠ .ok out) : Follows same lost strict lenient where
  takes found := absurd found (first _ _)
  gives found := absurd found (second _ _)

theorem Follows.pure {same : σ → τ → Prop} {lost : τ → Prop} {value : σ} {raw : τ}
    (alike : same value raw) : Follows same lost (pure value) (pure raw) where
  takes found := by
    obtain ⟨rfl, rfl⟩ := pure_eq_ok.mp found
    exact ⟨raw, pure_eq_ok.mpr ⟨rfl, rfl⟩, alike⟩
  gives found := by
    obtain ⟨rfl, rfl⟩ := pure_eq_ok.mp found
    exact .inl ⟨value, pure_eq_ok.mpr ⟨rfl, rfl⟩, alike⟩

theorem Follows.bind {same : σ → τ → Prop} {lost : τ → Prop} {same' : σ' → τ' → Prop}
    {lost' : τ' → Prop} {strict : Reader σ} {lenient : Reader τ} {next : σ → Reader σ'}
    {next' : τ → Reader τ'} (first : Follows same lost strict lenient)
    (later : ∀ value raw, same value raw → Follows same' lost' (next value) (next' raw))
    (keeps : ∀ raw, lost raw → ∀ {text rest final}, next' raw text = .ok (final, rest) →
      lost' final) :
    Follows same' lost' (strict >>= next) (lenient >>= next') where
  takes found := by
    obtain ⟨value, left, found, others⟩ := bind_eq_ok.mp found
    obtain ⟨raw, found', alike⟩ := first.takes found
    obtain ⟨final, others', last⟩ := (later value raw alike).takes others
    exact ⟨final, bind_eq_ok.mpr ⟨raw, left, found', others'⟩, last⟩
  gives found := by
    obtain ⟨raw, left, found, others⟩ := bind_eq_ok.mp found
    rcases first.gives found with ⟨value, found', alike⟩ | gone
    · rcases (later value raw alike).gives others with ⟨final, others', last⟩ | gone
      · exact .inl ⟨final, bind_eq_ok.mpr ⟨value, left, found', others'⟩, last⟩
      · exact .inr gone
    · exact .inr (keeps raw gone others)

theorem Follows.after {same : σ → τ → Prop} {lost : τ → Prop} (reader : Reader α)
    {next : α → Reader σ} {next' : α → Reader τ}
    (later : ∀ value, Follows same lost (next value) (next' value)) :
    Follows same lost (reader >>= next) (reader >>= next') := by
  refine (Follows.self reader).bind ?_ ?_
  · rintro value _ rfl
    exact later value
  · intro _ never
    exact never.elim

/-- Of a whole text, the strict reader makes the value for which what the lenient one makes of it
passes. -/
theorem Follows.read {passes : α → β → Prop} {strict : Reader α} {lenient : Reader β}
    (follows : Follows passes (fun raw => ∀ value, ¬ passes value raw) strict lenient)
    (unique : Relator.LeftUnique passes) (text : Bytes) (value : α) :
    Json.read strict text = .ok value ↔ ∃ raw, Json.read lenient text = .ok raw ∧ passes value raw := by
  simp only [read_eq_ok]
  constructor
  · rintro ⟨rest, found, blank⟩
    obtain ⟨raw, found, passed⟩ := follows.takes found
    exact ⟨raw, ⟨rest, found, blank⟩, passed⟩
  · rintro ⟨raw, ⟨rest, found, blank⟩, passed⟩
    rcases follows.gives found with ⟨other, found, passed'⟩ | gone
    · cases unique passed passed'
      exact ⟨rest, found, blank⟩
    · exact absurd passed (gone value)

/-! ## Values and `null` -/

/-- A reader that looks at the first byte of a value and takes no `null`. -/
def Looks (reader : Reader α) : Prop :=
  ∃ next : Byte → Reader α, reader = peek >>= next ∧ ∀ text out, next 0x6E text ≠ .ok out

theorem Looks.bind {reader : Reader α} (looks : Looks reader) (next : α → Reader β) :
    Looks (reader >>= next) := by
  obtain ⟨start, same, refuses⟩ := looks
  refine ⟨fun byte => start byte >>= next, ?_, ?_⟩
  · rw [same, bind_assoc]
  · intro text out found
    obtain ⟨value, rest, first, _⟩ := bind_eq_ok.mp found
    exact refuses text _ first

theorem otherKind_ne_ok (text : Bytes) (out : α × Bytes) : otherKind text ≠ .ok out := by
  intro found
  obtain ⟨byte, rest, _, found⟩ := bind_eq_ok.mp found
  -- Whatever reads the value, the fault comes after it.
  split_ifs at found <;> simp only [bind_eq_ok, throw_ne_ok, and_false, exists_false] at found

theorem looks_integer (least most : Int) : Looks (integer least most) :=
  ⟨_, rfl, otherKind_ne_ok⟩

theorem looks_text : Looks text := ⟨_, rfl, otherKind_ne_ok⟩

theorem looks_list (element : Reader α) : Looks (list element) := ⟨_, rfl, otherKind_ne_ok⟩

theorem peek_idem {text rest : Bytes} {byte : Byte} (found : peek text = .ok (byte, rest)) :
    peek rest = .ok (byte, rest) := by
  have again := List.dropWhile_idempotent isBlank text
  unfold peek skipBlanks at found ⊢
  cases shape : text.dropWhile isBlank with
  | nil => simp [shape] at found
  | cons first more =>
    rw [shape] at found again
    cases found
    rw [again]

theorem present_eq_ok {reader : Reader α} {text rest : Bytes} {value : Option α} :
    present reader text = .ok (value, rest) ↔
      ∃ given, reader text = .ok (given, rest) ∧ value = some given := by
  simp only [present, bind_eq_ok, pure_eq_ok]
  constructor
  · rintro ⟨given, _, found, rfl, rfl⟩
    exact ⟨given, found, rfl⟩
  · rintro ⟨given, found, rfl⟩
    exact ⟨given, rest, found, rfl, rfl⟩

theorem Looks.nullable_eq_ok {reader : Reader α} (looks : Looks reader) {text rest : Bytes}
    {value : α} : nullable reader text = .ok (some value, rest) ↔ reader text = .ok (value, rest) := by
  obtain ⟨next, rfl, refuses⟩ := looks
  simp only [nullable, bind_eq_ok]
  constructor
  · rintro ⟨byte, left, first, found⟩
    by_cases absent : byte = 0x6E
    · simp only [absent, ↓reduceIte, bind_eq_ok, pure_eq_ok] at found
      obtain ⟨_, _, _, none, _⟩ := found
      cases none
    · simp only [absent, ↓reduceIte, bind_eq_ok, pure_eq_ok, Option.some.injEq] at found
      obtain ⟨_, _, ⟨other, more, again, found⟩, rfl, rfl⟩ := found
      cases (peek_idem first).symm.trans again
      exact ⟨byte, left, first, found⟩
  · rintro ⟨byte, left, first, found⟩
    have present : byte ≠ 0x6E := by
      rintro rfl
      exact refuses _ _ found
    refine ⟨byte, left, first, ?_⟩
    simp only [present, ↓reduceIte, bind_eq_ok, pure_eq_ok]
    exact ⟨value, rest, ⟨byte, left, peek_idem first, found⟩, rfl, rfl⟩

theorem Follows.present_nullable {same : α → β → Prop} {lost : β → Prop} {strict : Reader α}
    {lenient : Reader β} (follows : Follows same lost strict lenient) (looks : Looks lenient) :
    Follows (Option.Rel same) (fun raw => ∀ given ∈ raw, lost given) (present strict)
      (nullable lenient) where
  takes found := by
    obtain ⟨value, given, rfl⟩ := present_eq_ok.mp found
    obtain ⟨raw, taken, alike⟩ := follows.takes given
    exact ⟨some raw, looks.nullable_eq_ok.mpr taken, .some alike⟩
  gives {text rest raw} found := by
    cases raw with
    | none => exact .inr fun _ member => nomatch member
    | some raw =>
      rcases follows.gives (looks.nullable_eq_ok.mp found) with ⟨value, found, alike⟩ | gone
      · exact .inl ⟨some value, present_eq_ok.mpr ⟨value, found, rfl⟩, .some alike⟩
      · refine .inr fun given member => ?_
        cases member
        exact gone

/-! ## Lists -/

theorem elementsOnto_extends {element : Reader α} {fuel : Nat} {seen values : List α}
    {text rest : Bytes} (found : elementsOnto element fuel seen text = .ok (values, rest)) :
    seen.reverse <+: values := by
  induction fuel generalizing seen text with
  | zero => exact absurd found throw_ne_ok
  | succ fuel ih =>
    rcases elementsOnto_eq_ok.mp found with ⟨_, rfl⟩ | ⟨_, value, _, _, _, others⟩
    · exact List.prefix_rfl
    · have longer := ih others
      rw [List.reverse_cons] at longer
      exact (List.prefix_append _ _).trans longer

theorem Follows.elementsOnto {same : α → β → Prop} {lost : β → Prop} {strict : Reader α}
    {lenient : Reader β} (follows : Follows same lost strict lenient) (fuel : Nat)
    {seen : List α} {raws : List β} (alike : List.Forall₂ same seen raws) :
    Follows (List.Forall₂ same) (fun all => ∃ raw ∈ all, lost raw)
      (Json.elementsOnto strict fuel seen) (Json.elementsOnto lenient fuel raws) := by
  induction fuel generalizing seen raws with
  | zero => exact .refused (fun _ _ => throw_ne_ok) (fun _ _ => throw_ne_ok)
  | succ fuel ih =>
    have empty : raws.isEmpty = seen.isEmpty := by cases alike <;> rfl
    rw [elementsOnto_succ, elementsOnto_succ, empty]
    refine .after _ fun further => ?_
    cases further with
    | false => exact .pure (List.forall₂_reverse_iff.mpr alike)
    | true =>
      refine follows.bind (fun value raw passed => ih (.cons passed alike)) ?_
      -- What is lost is still there at the end.
      intro raw gone text rest final others
      exact ⟨raw, (elementsOnto_extends others).subset (by simp), gone⟩

theorem Follows.list {same : α → β → Prop} {lost : β → Prop} {strict : Reader α}
    {lenient : Reader β} (follows : Follows same lost strict lenient) :
    Follows (List.Forall₂ same) (fun all => ∃ raw ∈ all, lost raw) (list strict)
      (list lenient) := by
  refine .after _ fun byte => ?_
  split
  · refine .after _ fun _ => ?_
    constructor
    · intro text rest value found
      exact (follows.elementsOnto (text.length + 1) .nil).takes found
    · intro text rest raw found
      exact (follows.elementsOnto (text.length + 1) .nil).gives found
  · exact .refused otherKind_ne_ok otherKind_ne_ok

/-! ## Records -/

/-- Two fields of one key. What is lost under another key stays lost. -/
structure Twin (same : σ → τ → Prop) (lost : String → τ → Prop) (strict : Field σ)
    (lenient : Field τ) : Prop where
  key : strict.key = lenient.key
  follows {parts : σ} {raw : τ} : same parts raw →
    Follows same (lost lenient.key) (strict.read parts) (lenient.read raw)
  keeps {key : String} {raw final : τ} {text rest : Bytes} : key ≠ lenient.key → lost key raw →
    lenient.read raw text = .ok (final, rest) → lost key final

/-- A field with a value that has to be given beside one that may be `null`. -/
theorem Twin.ofValue {same : σ → τ → Prop} {lost : String → τ → Prop} {alike : α → β → Prop}
    {gone : β → Prop} {strict : Reader α} {lenient : Reader β} {key : String}
    {set : σ → Option α → σ} {set' : τ → Option β → τ} (follows : Follows alike gone strict lenient)
    (looks : Looks lenient)
    (sets : ∀ {parts raw value given}, same parts raw → Option.Rel alike value given →
      same (set parts value) (set' raw given))
    (loses : ∀ raw value, (∀ given ∈ value, gone given) → lost key (set' raw value))
    (keeps : ∀ {other raw} value, other ≠ key → lost other raw → lost other (set' raw value)) :
    Twin same lost ⟨key, fun parts => present strict >>= fun value => pure (set parts value)⟩
      ⟨key, fun raw => nullable lenient >>= fun value => pure (set' raw value)⟩ where
  key := rfl
  follows begun := by
    refine (follows.present_nullable looks).bind (fun _ _ given => .pure (sets begun given)) ?_
    intro value nothing text rest final found
    obtain ⟨rfl, rfl⟩ := pure_eq_ok.mp found
    exact loses _ value nothing
  keeps other nothing found := by
    obtain ⟨value, _, _, made⟩ := bind_eq_ok.mp found
    obtain ⟨rfl, rfl⟩ := pure_eq_ok.mp made
    exact keeps value other nothing

namespace Record

variable {same : σ → τ → Prop} {lost : String → τ → Prop} {stricts : List (Field σ)}
  {lenients : List (Field τ)}

theorem find?_twins (twins : List.Forall₂ (Twin same lost) stricts lenients) (key : String) :
    stricts.find? (·.key = key) = none ∧ lenients.find? (·.key = key) = none ∨
      ∃ strict lenient, stricts.find? (·.key = key) = some strict ∧
        lenients.find? (·.key = key) = some lenient ∧ Twin same lost strict lenient ∧
        lenient.key = key := by
  induction twins with
  | nil => exact .inl ⟨rfl, rfl⟩
  | @cons strict lenient stricts lenients twin _ ih =>
    by_cases found : lenient.key = key
    · exact .inr ⟨strict, lenient, by simp [twin.key, found], by simp [found], twin, found⟩
    · simpa [twin.key, found] using ih

/-- The keys read so far, and what has been read under them. -/
def SameSeen (same : σ → τ → Prop) (parts : List String × σ) (raw : List String × τ) : Prop :=
  parts.1 = raw.1 ∧ same parts.2 raw.2

def LostSeen (lost : String → τ → Prop) (raw : List String × τ) : Prop :=
  ∃ key ∈ raw.1, lost key raw.2

theorem member_follows (twins : List.Forall₂ (Twin same lost) stricts lenients)
    (seen : List String) {parts : σ} {raw : τ} (alike : same parts raw) (key : String) :
    Follows (SameSeen same) (LostSeen lost) (member stricts seen parts key)
      (member lenients seen raw key) := by
  unfold member
  rcases find?_twins twins key with ⟨none, none'⟩ | ⟨strict, lenient, known, known', twin, rfl⟩
  · simp only [none, none']
    exact .after _ fun _ => .after _ fun _ => .pure ⟨rfl, alike⟩
  · simp only [known, known']
    split
    · exact .refused (fun _ _ => by simp [bind_eq_ok]) (fun _ _ => by simp [bind_eq_ok])
    · refine .after _ fun _ => ?_
      refine (twin.follows alike).bind (fun _ _ alike => .pure ⟨rfl, alike⟩) ?_
      intro raw gone text rest final found
      obtain ⟨rfl, rfl⟩ := pure_eq_ok.mp found
      exact ⟨lenient.key, List.mem_cons_self, gone⟩

/-- What is lost stays lost, since no field is read twice. -/
theorem member_keeps (twins : List.Forall₂ (Twin same lost) stricts lenients)
    {seen later : List String} {raw final : τ} {key : String} {text rest : Bytes}
    (gone : LostSeen lost (seen, raw))
    (found : member lenients seen raw key text = .ok ((later, final), rest)) :
    LostSeen lost (later, final) := by
  obtain ⟨old, before, gone⟩ := gone
  rcases member_eq_ok.mp found with ⟨field, left, some, fresh, _, read, rfl⟩ | ⟨_, _, _, _, rfl, rfl⟩
  · rcases find?_twins twins key with ⟨_, none⟩ | ⟨strict, lenient, _, known, twin, rfl⟩
    · cases none.symm.trans some
    · obtain rfl := Option.some.inj (known.symm.trans some)
      refine ⟨old, List.mem_cons_of_mem _ before, twin.keeps ?_ gone read⟩
      rintro rfl
      exact fresh before
  · exact ⟨old, before, gone⟩

theorem members_keeps (twins : List.Forall₂ (Twin same lost) stricts lenients) {fuel : Nat}
    {first : Bool} {seen : List String} {raw final : τ} {text rest : Bytes}
    (gone : LostSeen lost (seen, raw))
    (found : members lenients fuel first seen raw text = .ok (final, rest)) :
    ∃ key, lost key final := by
  induction fuel generalizing first seen raw text with
  | zero => exact absurd found throw_ne_ok
  | succ fuel ih =>
    rcases members_eq_ok.mp found with ⟨_, rfl⟩ | ⟨_, _, _, _, _, _, read, others⟩
    · obtain ⟨key, _, gone⟩ := gone
      exact ⟨key, gone⟩
    · exact ih (member_keeps twins gone read) others

theorem members_follows (twins : List.Forall₂ (Twin same lost) stricts lenients) (fuel : Nat)
    (first : Bool) (seen : List String) {parts : σ} {raw : τ} (alike : same parts raw) :
    Follows same (fun final => ∃ key, lost key final) (members stricts fuel first seen parts)
      (members lenients fuel first seen raw) := by
  -- On the fuel: both readers see the same key, and a part that is lost stays lost.
  induction fuel generalizing first seen parts raw with
  | zero => exact .refused (fun _ _ => throw_ne_ok) (fun _ _ => throw_ne_ok)
  | succ fuel ih =>
    rw [members_succ, members_succ]
    refine .after _ fun key => ?_
    cases key with
    | none => exact .pure alike
    | some key =>
      refine (member_follows twins seen alike key).bind ?_ ?_
      · rintro ⟨seen, parts⟩ ⟨_, raw⟩ ⟨rfl, alike⟩
        exact ih false seen alike
      · rintro ⟨seen, raw⟩ gone text rest final others
        exact members_keeps twins gone others

theorem elements_keeps (twins : List.Forall₂ (Twin same lost) stricts lenients) {first : Bool}
    {raw final : τ} {gone : String} {text rest : Bytes}
    (apart : gone ∉ lenients.map (·.key)) (nothing : lost gone raw)
    (found : elements first lenients raw text = .ok (final, rest)) : lost gone final := by
  induction twins generalizing first raw text with
  | nil =>
    obtain ⟨_, _, _, same⟩ := bind_eq_ok.mp found
    obtain ⟨rfl, rfl⟩ := pure_eq_ok.mp same
    exact nothing
  | cons twin _ ih =>
    rw [List.map_cons, List.mem_cons, not_or] at apart
    rcases elements_eq_ok.mp found with ⟨_, rfl⟩ | ⟨_, _, _, _, read, others⟩
    · exact nothing
    · exact ih apart.2 (twin.keeps apart.1 nothing read) others

theorem elements_follows (twins : List.Forall₂ (Twin same lost) stricts lenients)
    (distinct : (lenients.map (·.key)).Nodup) (first : Bool) {parts : σ} {raw : τ}
    (alike : same parts raw) :
    Follows same (fun final => ∃ key, lost key final) (elements first stricts parts)
      (elements first lenients raw) := by
  -- On the fields of both in step: no later field brings back a part that is lost.
  induction twins generalizing first parts raw with
  | nil => exact .after _ fun _ => .pure alike
  | cons twin twins ih =>
    rw [List.map_cons, List.nodup_cons] at distinct
    rw [elements_cons, elements_cons]
    refine .after _ fun further => ?_
    cases further with
    | false => exact .pure alike
    | true =>
      refine (twin.follows alike).bind (fun _ _ alike => ih distinct.2 false alike) ?_
      intro raw gone text rest final others
      exact ⟨_, elements_keeps twins distinct.1 gone others⟩

/-- Records with the same keys. Whether what the lenient one makes passes is settled by the parts
that the strict one has read, and by what is lost. -/
theorem read_follows {passes : α → τ → Prop} {strict : Record σ α} {lenient : Record τ τ}
    (twins : List.Forall₂ (Twin same lost) strict.fields lenient.fields)
    (distinct : (lenient.fields.map (·.key)).Nodup) (start : same strict.start lenient.start)
    (all : lenient.finish = some)
    (whole : ∀ parts raw, same parts raw → ∀ value, strict.finish parts = some value ↔ passes value raw)
    (wasted : ∀ key raw, lost key raw → ∀ value, ¬ passes value raw) :
    Follows passes (fun raw => ∀ value, ¬ passes value raw) strict.read lenient.read := by
  have body : Follows same (fun raw => ∃ key, lost key raw) strict.body lenient.body := by
    refine .after _ fun byte => ?_
    split
    · refine .after _ fun _ => ?_
      constructor
      · intro text rest parts found
        exact (members_follows twins (text.length + 1) true [] start).takes found
      · intro text rest raw found
        exact (members_follows twins (text.length + 1) true [] start).gives found
    · split
      · exact .after _ fun _ => elements_follows twins distinct true start
      · exact .refused otherKind_ne_ok otherKind_ne_ok
  constructor
  · intro text rest value found
    obtain ⟨parts, read, made⟩ := read_eq_ok.mp found
    obtain ⟨raw, taken, alike⟩ := body.takes read
    exact ⟨raw, read_eq_ok.mpr ⟨raw, taken, by rw [all]⟩, (whole parts raw alike value).mp made⟩
  · intro text rest raw found
    obtain ⟨_, read, made⟩ := read_eq_ok.mp found
    rw [all] at made
    cases made
    rcases body.gives read with ⟨parts, taken, alike⟩ | ⟨key, gone⟩
    · cases made : strict.finish parts with
      | some value =>
        exact .inl ⟨value, read_eq_ok.mpr ⟨parts, taken, made⟩,
          (whole parts raw alike value).mp made⟩
      | none =>
        refine .inr fun value passed => ?_
        cases made.symm.trans ((whole parts raw alike value).mpr passed)
    · exact .inr (wasted key raw gone)

end Record

end TaskMonitor.Json
