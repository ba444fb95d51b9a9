import ScEthernet.Lib.BitOrder

/-! Values over a channel: an int is four tokens, the most significant byte first, a char is one. -/
namespace ScEthernet.Lib.ChannelTokens
open BitOrder

abbrev Token := BitVec 8

def outInt (x : BitVec 32) : List Token := (bytesOf x).reverse
def outChar (x : BitVec 8) : List Token := [x]

abbrev Reader := StateT (List Token) Option

def inInt : Reader (BitVec 32)
  | a :: b :: c :: d :: rest => some (a ++ b ++ c ++ d, rest)
  | _ => none

def inChar : Reader (BitVec 8)
  | a :: rest => some (a, rest)
  | _ => none

/- The reader takes exactly these tokens, whatever comes after them. -/
def Reads {α : Type} (r : Reader α) (sent : List Token) (x : α) : Prop :=
  ∀ rest, r (sent ++ rest) = some (x, rest)

section
variable {α β : Type} {sent more : List Token}

theorem readsPure (x : α) : Reads (pure x) [] x := fun _ => rfl

theorem readsBind {r : Reader α} {f : α → Reader β} {x : α} {y : β} (first : Reads r sent x)
    (next : Reads (f x) more y) : Reads (r >>= f) (sent ++ more) y := by
  intro rest
  have one := first (more ++ rest)
  rw [← List.append_assoc] at one
  change (r (sent ++ more ++ rest) >>= fun p => f p.1 p.2) = _
  rw [one]
  exact next rest

theorem readsMap {r : Reader α} {x : α} (f : α → β) (reads : Reads r sent x) : Reads (f <$> r) sent (f x) := by
  intro rest
  change (r (sent ++ rest)).bind (fun p => some (f p.1, p.2)) = _
  rw [reads rest]
  rfl

theorem readsInt (x : BitVec 32) : Reads inInt (outInt x) x := by
  intro rest
  have parts := packedBytes x
  simp only [outInt, bytesOf, List.reverse_cons, List.reverse_nil, List.nil_append, List.cons_append, inInt, parts]

theorem readsChar (x : BitVec 8) : Reads inChar (outChar x) x := fun _ => rfl

theorem outIntByterev (x : BitVec 32) : outInt (byterev x) = bytesOf x := by
  rw [outInt, bytesOfByterev, List.reverse_reverse]

theorem outIntLength (x : BitVec 32) : (outInt x).length = 4 := rfl

end

end ScEthernet.Lib.ChannelTokens
