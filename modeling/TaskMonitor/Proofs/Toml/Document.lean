import TaskMonitor.Proofs.Toml.Scalar
import TaskMonitor.Toml.Document

/-! A line with a bare key and a scalar value gives an entry of the table at hand. Integers among
the entries of a document lie in the range of TOML. -/

set_option autoImplicit false

namespace TaskMonitor.Toml

open Number (isDigit_ne)

/-- The first list is a scalar value that reads as the node up to the end of its line. -/
structure Written (value : List Char) (node : Node) : Prop where
  starts : ∃ first more, value = first :: more ∧ isBlank first = false ∧
    first ≠ '[' ∧ first ≠ '\x7b'
  reads : ∀ rest, scalar (value ++ '\n' :: rest) = some (node, '\n' :: rest)

theorem written_quote (text : String) : Written (quote text) (.text text) where
  starts := by
    obtain ⟨mark, more, shape, _, quoted⟩ := quote_head text
    refine ⟨mark, more, shape, ?_⟩
    rcases quoted with rfl | rfl <;> decide
  reads := scalar_quote text

theorem written_digits {n : Nat} (fits : n ≤ mostInteger) :
    Written (Number.digits n) (.integer n) where
  starts := by
    obtain ⟨first, more, shape, digit⟩ := first_digit n
    refine ⟨first, more, shape, ?_, isDigit_ne digit (by decide), isDigit_ne digit (by decide)⟩
    simp only [isBlank, decide_eq_false_iff_not, not_or]
    exact ⟨isDigit_ne digit (by decide), isDigit_ne digit (by decide)⟩
  reads := scalar_digits fits

structure Bare (key : String) : Prop where
  some : key.toList ≠ []
  each : key.toList.all isBareKey

theorem Bare.mem {key : String} (bare : Bare key) : ∀ c ∈ key.toList, isBareKey c :=
  List.all_eq_true.mp bare.each

/-- A character that neither a line without an entry nor a quoted key starts with. -/
structure Starting (c : Char) : Prop where
  noQuote : c ≠ '"' ∧ c ≠ '\''
  noComment : c ≠ '#'
  noHeader : c ≠ '['
  noLineEnd : c ≠ '\n' ∧ c ≠ '\r'
  noBlank : isBlank c = false

theorem starting_of_bare {c : Char} (bare : isBareKey c) : Starting c := by
  have other : ∀ d : Char, isBareKey d = false → c ≠ d := by
    rintro d none rfl
    rw [bare] at none
    cases none
  refine ⟨⟨other _ (by decide), other _ (by decide)⟩, other _ (by decide), other _ (by decide),
    ⟨other _ (by decide), other _ (by decide)⟩, ?_⟩
  simp only [isBlank, decide_eq_false_iff_not, not_or]
  exact ⟨other _ (by decide), other _ (by decide)⟩

theorem Bare.head {key : String} (bare : Bare key) :
    ∃ first more, key.toList = first :: more ∧ Starting first := by
  cases shape : key.toList with
  | nil => exact absurd shape bare.some
  | cons first more =>
    exact ⟨first, more, rfl, starting_of_bare (bare.mem first (shape ▸ List.mem_cons_self))⟩

theorem blanks_solid {c : Char} (solid : isBlank c = false) (rest : List Char) :
    blanks (c :: rest) = some ((), c :: rest) := by
  rw [blanks, List.dropWhile_cons_of_neg (by simp [solid])]

theorem simpleKey_bare {key : String} (bare : Bare key) (rest : List Char) :
    simpleKey (key.toList ++ ' ' :: rest) = some (key, ' ' :: rest) := by
  obtain ⟨first, more, shape, starts⟩ := bare.head
  obtain ⟨noQuote, noMark⟩ := starts.noQuote
  have span : (key.toList ++ ' ' :: rest).span isBareKey = (key.toList, ' ' :: rest) := by
    rw [List.span_eq_takeWhile_dropWhile, List.takeWhile_append_of_pos bare.mem,
      List.dropWhile_append_of_pos bare.mem]
    simp [isBareKey]
  rw [shape, List.cons_append] at span ⊢
  rw [simpleKey]
  simp only [noQuote, noMark, ↓reduceIte, span]
  rw [← shape, String.ofList_toList]

theorem key_bare {key : String} (bare : Bare key) (rest : List Char) :
    Toml.key (key.toList ++ ' ' :: '=' :: rest) = some (([], key), '=' :: rest) := by
  obtain ⟨first, more, shape, starts⟩ := bare.head
  have read := simpleKey_bare bare ('=' :: rest)
  have solid := blanks_solid starts.noBlank (more ++ ' ' :: '=' :: rest)
  have alone : optional (satisfy (· = '.')) ('=' :: rest) = some (none, '=' :: rest) :=
    optional_none (satisfy_other (by decide) rest)
  rw [shape, List.cons_append] at read ⊢
  have whole : keyOnto [] (depthLimit - 1) (first :: (more ++ ' ' :: '=' :: rest)) =
      some ([key], '=' :: rest) := by
    have deep : depthLimit - 1 = depthLimit - 2 + 1 := rfl
    rw [deep, keyOnto, bind_some solid, bind_some read, bind_some rfl]
    exact bind_some alone _
  rw [Toml.key, bind_some whole]
  rfl

theorem value_scalar {first : Char} (noList : first ≠ '[') (noTable : first ≠ '\x7b') (depth : Nat)
    (rest : List Char) : value depth (first :: rest) = scalar (first :: rest) := by
  cases depth with
  | zero => rfl
  | succ depth => simp only [value, noList, noTable, ↓reduceIte]

theorem restOfLine_end (rest : List Char) : restOfLine ('\n' :: rest) = some ((), rest) := by
  have noComment : comment ('\n' :: rest) = none := bind_none (satisfy_other rfl rest) _
  rw [restOfLine, bind_some (blanks_solid (by decide) rest), bind_some (optional_none noComment)]
  rfl

theorem keyValue_line {key : String} {written : List Char} {node : Node} (bare : Bare key)
    (shown : Written written node) (rest : List Char) :
    keyValue (key.toList ++ ' ' :: '=' :: ' ' :: (written ++ '\n' :: rest)) =
      some (([], key, node), rest) := by
  obtain ⟨first, more, shape, solid, noList, noTable⟩ := shown.starts
  have read := shown.reads rest
  rw [shape, List.cons_append] at read ⊢
  have equals : satisfy (· = '=') ('=' :: ' ' :: first :: (more ++ '\n' :: rest)) =
      some ('=', ' ' :: first :: (more ++ '\n' :: rest)) := rfl
  have blank : blanks (' ' :: first :: (more ++ '\n' :: rest)) =
      some ((), first :: (more ++ '\n' :: rest)) := by
    rw [← blanks_solid solid]
    rfl
  have found : value (depthLimit - 1) (first :: (more ++ '\n' :: rest)) =
      some (node, '\n' :: rest) := by
    rw [value_scalar noList noTable, read]
  rw [keyValue, bind_some (key_bare bare _)]
  dsimp only
  rw [bind_some equals, bind_some blank, bind_some found, bind_some (restOfLine_end rest)]
  rfl

theorem insert_fresh {entries : Entries} {key : String} (fresh : entries.get? key = none)
    (node : Node) : entries.insert [] key node = some (entries ++ [(key, node)]) := by
  simp [Entries.insert, Entries.alter, fresh]

/-- A line with a new key adds an entry to the table of a document without headers. -/
theorem linesFrom_line {key : String} {written : List Char} {node : Node} (bare : Bare key)
    (shown : Written written node) {root : Entries} (fresh : root.get? key = none) (fuel : Nat)
    (rest : List Char) :
    linesFrom { root } (fuel + 1)
        (key.toList ++ ' ' :: '=' :: ' ' :: (written ++ '\n' :: rest)) =
      linesFrom { root := root ++ [(key, node)] } fuel rest := by
  obtain ⟨first, more, shape, starts⟩ := bare.head
  have read := keyValue_line bare shown rest
  rw [shape, List.cons_append] at read ⊢
  generalize more ++ ' ' :: '=' :: ' ' :: (written ++ '\n' :: rest) = left at read ⊢
  have noEnd : lineEnd? (first :: left) = none :=
    lineEnd?_other starts.noLineEnd.1 starts.noLineEnd.2 left
  have one : line { root } (first :: left) = some ({ root := root ++ [(key, node)] }, rest) := by
    simp [line, starts.noComment, starts.noHeader, read, Entries.alter, insert_fresh fresh]
  rw [linesFrom, List.dropWhile_cons_of_neg (by simp [starts.noBlank])]
  simp only [noEnd, one]
  rfl

/-! ## The range of integers -/

theorem ranged_table (origin : Origin) (entries : Entries) : Ranged (.table origin entries) :=
  trivial

theorem ranged_tables (elements : List Entries) : Ranged (.tables elements) := trivial

def Entries.Ranged (entries : Entries) : Prop := ∀ entry ∈ entries, Toml.Ranged entry.2

theorem Entries.Ranged.snoc {entries : Entries} (ranged : entries.Ranged) {node : Node}
    (last : Toml.Ranged node) (key : String) : Entries.Ranged (entries ++ [(key, node)]) := by
  intro entry member
  rcases List.mem_append.mp member with before | same
  · exact ranged entry before
  · rw [List.mem_singleton.mp same]
    exact last

theorem Entries.Ranged.replace {entries : Entries} (ranged : entries.Ranged) {node : Node}
    (new : Toml.Ranged node) (key : String) : Entries.Ranged (entries.replace key node) := by
  intro entry member
  obtain ⟨old, among, rfl⟩ := List.mem_map.mp member
  split
  · exact new
  · exact ranged old among

/-- On the way to the table that is changed only tables are put into others. -/
theorem Entries.Ranged.alter {step : Origin} {change : Origin → Entries → Option Entries}
    (keeps : ∀ origin before after, Entries.Ranged before → change origin before = some after →
      Entries.Ranged after)
    {path : List String} {origin : Origin} {entries out : Entries} (ranged : entries.Ranged)
    (found : Entries.alter step change path origin entries = some out) : out.Ranged := by
  cases path with
  | nil => exact keeps origin entries out ranged found
  | cons key path =>
    rw [Entries.alter] at found
    split at found
    · obtain ⟨inner, _, same⟩ := Option.bind_eq_some_iff.mp found
      cases same
      exact ranged.snoc (ranged_table _ _) key
    · split at found
      · cases found
      · obtain ⟨inner, _, same⟩ := Option.bind_eq_some_iff.mp found
        cases same
        exact ranged.replace (ranged_table _ _) key
    · split at found
      · cases found
      · obtain ⟨inner, _, same⟩ := Option.bind_eq_some_iff.mp found
        cases same
        exact ranged.replace (ranged_tables _) key
    · cases found

theorem Entries.Ranged.insert {path : List String} {key : String} {node : Node}
    (new : Toml.Ranged node) {entries out : Entries} (ranged : entries.Ranged)
    (found : entries.insert path key node = some out) : out.Ranged := by
  refine ranged.alter ?_ found
  intro origin before after ranged changed
  split at changed
  · cases changed
  · cases changed
    exact ranged.snoc new key

theorem Entries.Ranged.openTable {path : List String} {key : String} {entries out : Entries}
    (ranged : entries.Ranged) (found : entries.openTable path key = some out) : out.Ranged := by
  refine ranged.alter ?_ found
  intro origin before after ranged changed
  split at changed
  · cases changed
    exact ranged.snoc (ranged_table _ _) key
  · cases changed
    exact ranged.replace (ranged_table _ _) key
  · cases changed

theorem Entries.Ranged.openElement {path : List String} {key : String} {entries out : Entries}
    (ranged : entries.Ranged) (found : entries.openElement path key = some out) : out.Ranged := by
  refine ranged.alter ?_ found
  intro origin before after ranged changed
  split at changed
  · cases changed
    exact ranged.snoc (ranged_tables _) key
  · cases changed
    exact ranged.replace (ranged_tables _) key
  · cases changed

theorem ranged_value (depth : Nat) : Gives Ranged (value depth) := by
  cases depth with
  | zero => exact ranged_scalar
  | succ depth =>
    intro text node rest found
    simp only [value] at found
    split at found
    · cases found
    · split at found
      · obtain ⟨_, _, same⟩ := Option.map_eq_some_iff.mp found
        cases same
        trivial
      · split at found
        · obtain ⟨_, _, same⟩ := Option.map_eq_some_iff.mp found
          cases same
          trivial
        · exact ranged_scalar _ _ _ found

theorem ranged_keyValue : Gives (fun found => Ranged found.2.2) keyValue :=
  .bind fun _ => .bind fun _ => .bind fun _ =>
    .after (ranged_value _) fun _ ranged => .bind fun _ => .pure ranged

theorem ranged_line {draft next : Draft} {text rest : List Char} (ranged : draft.root.Ranged)
    (found : line draft text = some (next, rest)) : next.root.Ranged := by
  unfold line at found
  split at found
  · have same : Gives (· = draft) (restOfLine *> pure draft) := .bind fun _ => .pure rfl
    rw [same _ _ _ found]
    exact ranged
  · split at found
    · split at found
      · obtain ⟨⟨⟨path, last⟩, left⟩, _, found⟩ := Option.bind_eq_some_iff.mp found
        obtain ⟨root, opened, same⟩ := Option.bind_eq_some_iff.mp found
        cases same
        exact ranged.openElement opened
      · obtain ⟨⟨⟨path, last⟩, left⟩, _, found⟩ := Option.bind_eq_some_iff.mp found
        obtain ⟨root, opened, same⟩ := Option.bind_eq_some_iff.mp found
        cases same
        exact ranged.openTable opened
    · obtain ⟨⟨⟨path, last, node⟩, left⟩, read, found⟩ := Option.bind_eq_some_iff.mp found
      obtain ⟨root, changed, same⟩ := Option.bind_eq_some_iff.mp found
      cases same
      have node := ranged_keyValue _ _ _ read
      refine ranged.alter ?_ changed
      intro origin before after ranged inserted
      exact ranged.insert node inserted

theorem ranged_linesFrom {draft : Draft} {fuel : Nat} {text : List Char} {entries : Entries}
    (ranged : draft.root.Ranged) (found : linesFrom draft fuel text = some entries) :
    entries.Ranged := by
  induction fuel generalizing draft text with
  | zero => cases found
  | succ fuel ih =>
    rw [linesFrom] at found
    split at found
    · cases found
      exact ranged
    · split at found
      · exact ih ranged found
      · obtain ⟨⟨next, rest⟩, read, found⟩ := Option.bind_eq_some_iff.mp found
        exact ih (ranged_line ranged read) found

theorem ranged_parse {text : List Char} {entries : Entries} (found : parse? text = some entries) :
    entries.Ranged := by
  refine ranged_linesFrom ?_ found
  intro entry member
  cases member

end TaskMonitor.Toml
