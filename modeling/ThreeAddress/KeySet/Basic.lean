/-! Finite sets of keys, listed in ascending order without repetition. -/

namespace ThreeAddress

structure KeySet (α : Type) where
  keys : List α := []
deriving DecidableEq, Repr, Inhabited

/-- Puts a key into its place in an ascending list. -/
def insertKey {α : Type} [LT α] [DecidableLT α] (k : α) : List α → List α
  | [] => [k]
  | x :: rest => if k < x then k :: x :: rest else if x < k then x :: insertKey k rest else x :: rest

namespace KeySet

variable {α : Type}

def empty : KeySet α := ⟨[]⟩

def single (k : α) : KeySet α := ⟨[k]⟩

def toList (s : KeySet α) : List α := s.keys

def size (s : KeySet α) : Nat := s.keys.length

def isEmpty (s : KeySet α) : Bool := s.keys.isEmpty

/-- The least key. -/
def first? (s : KeySet α) : Option α := s.keys.head?

def contains [DecidableEq α] (s : KeySet α) (k : α) : Bool := decide (k ∈ s.keys)

def erase [DecidableEq α] (s : KeySet α) (k : α) : KeySet α := ⟨s.keys.filter (· ≠ k)⟩

/-- Visits keys in order with a state, up to the first visit that does not go on. -/
def visit {σ : Type} (f : σ → α → σ × Bool) (state : σ) : List α → σ
  | [] => state
  | k :: rest =>
    let (state, goesOn) := f state k
    if goesOn then visit f state rest else state

variable [LT α] [DecidableLT α]

def insert (s : KeySet α) (k : α) : KeySet α := ⟨insertKey k s.keys⟩

end KeySet

end ThreeAddress
