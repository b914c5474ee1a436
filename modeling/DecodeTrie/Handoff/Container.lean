import DecodeTrie.Handoff.Strings

/-!
# Lists and objects

The members of a list or object are separated by single commas, with none behind the last one. The
steps here look at what comes next and leave the closing bracket of a list, and the closing brace
of an object, where a reader wants to see it.
-/

namespace DecodeTrie.Handoff

/-- Whether a list goes on; if so, the next element is next in the text. -/
def hasElement (first : Bool) : Reader Bool := do
  let c ← peek
  if c = ']' then pure false
  else if first then pure true
  else if c = ',' then do
    advance
    let d ← peek
    if d = ']' then fail .malformed else pure true
  else fail .malformed

/-- Whether an object goes on; if so, the next key without its opening quote is next. -/
def hasMember (first : Bool) : Reader Bool := do
  let c ← peek
  if c = '}' then pure false
  else do
    if !first then punctuation ','
    punctuation '"'
    pure true

/-- Reads at most `bound` elements of a list, up to its end. -/
def elementsWithin {α : Type} (element : Reader α) : Nat → Bool → Reader (List α)
  | 0, _ => fail .ended
  | bound + 1, first => do
    if ← hasElement first then
      let a ← element
      return a :: (← elementsWithin element bound false)
    else
      advance
      return []

/-- Reads the elements of a list behind its opening bracket. Each takes some of the text. -/
def elements {α : Type} (element : Reader α) : Reader (List α) := fun s ↦
  elementsWithin element (s.length + 1) true s

/-- Reads at most `bound` members of an object, up to its end, into a state. -/
def membersWithin {σ : Type} (member : String → σ → Reader σ) : Nat → Bool → σ → Reader σ
  | 0, _, _ => fail .ended
  | bound + 1, first, state => do
    if ← hasMember first then
      let key ← Strings.body
      let state ← member key state
      membersWithin member bound false state
    else
      pure state

/-- Reads the members of an object behind its opening brace, up to its closing brace. -/
def members {σ : Type} (member : String → σ → Reader σ) (state : σ) : Reader σ := fun s ↦
  membersWithin member (s.length + 1) true state s

end DecodeTrie.Handoff
