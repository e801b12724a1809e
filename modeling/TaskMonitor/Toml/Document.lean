import TaskMonitor.Toml.Scalar

/-! Whole TOML documents: keys, nested values, headers and lines. -/

set_option autoImplicit false

namespace TaskMonitor.Toml

/-- Values nest, and keys have parts, up to one less than this. -/
def depthLimit : Nat := 80

def blanks : Reader Unit := fun text => some ((), text.dropWhile isBlank)

def lineEnd : Reader Unit := fun text => (lineEnd? text).map fun rest => ((), rest)

def comment : Reader Unit := do
  let _ ← satisfy (· = '#')
  fun text => some ((), text.dropWhile isPlain)

def restOfLine : Reader Unit := do
  blanks
  let _ ← optional comment
  fun text => if text = [] then some ((), []) else lineEnd text

def skipTrivia (text : List Char) : List Char :=
  match _skipped : text.dropWhile isBlank with
  | '\n' :: rest => skipTrivia rest
  | '\r' :: '\n' :: rest => skipTrivia rest
  | '#' :: rest => skipTrivia (rest.dropWhile isPlain)
  | rest => rest
termination_by text.length
decreasing_by
  · have shorter := (List.dropWhile_suffix isBlank (l := text)).length_le
    rw [_skipped] at shorter
    exact shorter
  · have shorter := (List.dropWhile_suffix isBlank (l := text)).length_le
    rw [_skipped] at shorter
    exact Nat.lt_of_succ_lt shorter
  · have shorter := (List.dropWhile_suffix isBlank (l := text)).length_le
    rw [_skipped] at shorter
    exact Nat.lt_of_lt_of_le (Nat.lt_succ_of_le (List.dropWhile_suffix isPlain).length_le) shorter

def trivia : Reader Unit := fun text => some ((), skipTrivia text)

def isBareKey (c : Char) : Bool := c.isAlphanum || c = '-' || c = '_'

def simpleKey : Reader String := fun text =>
  match text with
  | [] => none
  | c :: rest =>
    if c = '"' then (lineOnto .basic [] rest).map fun (key, rest) => (.ofList key, rest)
    else if c = '\'' then (lineOnto .literal [] rest).map fun (key, rest) => (.ofList key, rest)
    else
      match text.span isBareKey with
      | ([], _) => none
      | (key, rest) => some (.ofList key, rest)

def keyOnto (seen : List String) : Nat → Reader (List String)
  | 0 => failure
  | fuel + 1 => do
    blanks
    let part ← simpleKey
    blanks
    match ← optional (satisfy (· = '.')) with
    | some _ => keyOnto (part :: seen) fuel
    | none => return part :: seen

def key : Reader (List String × String) := do
  match ← keyOnto [] (depthLimit - 1) with
  | last :: path => return (path.reverse, last)
  | [] => failure

def elementsOnto (element : Reader Node) (seen : List Node) : Nat → Reader (List Node)
  | 0 => failure
  | fuel + 1 => do
    trivia
    match ← optional (satisfy (· = ']')) with
    | some _ => return seen.reverse
    | none =>
      let value ← element
      trivia
      match ← optional (satisfy (· = ',')) with
      | some _ => elementsOnto element (value :: seen) fuel
      | none =>
        let _ ← satisfy (· = ']')
        return (value :: seen).reverse

def membersOnto (value : Reader Node) (entries : Entries) : Nat → Reader Entries
  | 0 => failure
  | fuel + 1 => do
    let (path, last) ← key
    let _ ← satisfy (· = '=')
    blanks
    let node ← value
    blanks
    match entries.insert path last node with
    | none => failure
    | some entries =>
      match ← optional (satisfy (· = ',')) with
      | some _ => membersOnto value entries fuel
      | none =>
        let _ ← satisfy (· = '\x7d')
        return entries

def members (value : Reader Node) : Reader Entries := do
  blanks
  match ← optional (satisfy (· = '\x7d')) with
  | some _ => return []
  | none => fun text => membersOnto value [] (text.length + 1) text

/-- A value in which lists and tables nest at most so deep. -/
def value : Nat → Reader Node
  | 0 => scalar
  | depth + 1 => fun text =>
    match text with
    | [] => none
    | c :: rest =>
      if c = '[' then
        (elementsOnto (value depth) [] (rest.length + 1) rest).map fun (elements, left) =>
          (.list elements, left)
      else if c = '\x7b' then
        (members (value depth) rest).map fun (entries, left) => (.inline entries, left)
      else scalar text

def keyValue : Reader (List String × String × Node) := do
  let (path, last) ← key
  let _ ← satisfy (· = '=')
  blanks
  let node ← value (depthLimit - 1)
  restOfLine
  return (path, last, node)

/-- What has been read of a document, and the header under which its next lines stand. -/
structure Draft where
  root : Entries := []
  header : List String := []

def headerKey (width : Nat) : Reader (List String × String) := do
  word (List.replicate width '[')
  let name ← key
  word (List.replicate width ']')
  restOfLine
  return name

def line (draft : Draft) : Reader Draft := fun text =>
  if text.head? = some '#' then (restOfLine *> pure draft) text
  else if text.head? = some '[' then
    if (text.drop 1).head? = some '[' then do
      let ((path, last), rest) ← headerKey 2 text
      let root ← draft.root.openElement path last
      return (⟨root, path ++ [last]⟩, rest)
    else do
      let ((path, last), rest) ← headerKey 1 text
      let root ← draft.root.openTable path last
      return (⟨root, path ++ [last]⟩, rest)
  else do
    let ((path, last, node), rest) ← keyValue text
    let root ← Entries.alter .implied (fun _ entries => entries.insert path last node)
      draft.header .header draft.root
    return ({ draft with root }, rest)

/-- The lines of a text; so much fuel bounds their number. -/
def linesFrom (draft : Draft) : Nat → List Char → Option Entries
  | 0, _ => none
  | fuel + 1, text =>
    match text.dropWhile isBlank with
    | [] => some draft.root
    | text =>
      match lineEnd? text with
      | some rest => linesFrom draft fuel rest
      | none => do
        let (draft, rest) ← line draft text
        linesFrom draft fuel rest

def parse? (text : List Char) : Option Entries :=
  let text := if text.head? = some (Char.ofNat 0xFEFF) then text.drop 1 else text
  linesFrom {} (text.length + 1) text

end TaskMonitor.Toml
