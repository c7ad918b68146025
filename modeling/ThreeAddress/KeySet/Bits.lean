/-!
Sets of keys as bits of words: key `64 i + j` is bit `j` of word `i`. A set has as many words as it
has needed since it was emptied last, so that equal sets may differ in the zero words at the end.
-/

namespace ThreeAddress

structure Bits where
  words : List UInt64 := []
deriving DecidableEq, Repr, Inhabited

namespace Bits

def wordBits : Nat := 64

/-- The word with one bit. -/
def mask (j : Nat) : UInt64 := 1 <<< UInt64.ofNat j

/-- How many bits there are below the lowest one that is set. -/
def trailingZeros (w : UInt64) : Nat := w.toBitVec.ctz.toNat

/-- How many bits are set. -/
def onesCount (w : UInt64) : Nat := w.toBitVec.cpop.toNat

def withBit (w : UInt64) (j : Nat) : UInt64 := w ||| mask j

def withoutBit (w : UInt64) (j : Nat) : UInt64 := w &&& ~~~mask j

/-- The words with zeros behind them, so that there are `n` at least. -/
def grown (ws : List UInt64) (n : Nat) : List UInt64 := ws ++ List.replicate (n - ws.length) 0

def insert (s : Bits) (k : Nat) : Bits :=
  ⟨(grown s.words (k / wordBits + 1)).modify (k / wordBits) (withBit · (k % wordBits))⟩

def contains (s : Bits) (k : Nat) : Bool :=
  s.words[k / wordBits]?.any fun w => w &&& mask (k % wordBits) ≠ 0

def erase (s : Bits) (k : Nat) : Bits :=
  ⟨s.words.modify (k / wordBits) (withoutBit · (k % wordBits))⟩

/-- Sets the bits of the second words in the first ones. -/
def orWords : List UInt64 → List UInt64 → List UInt64
  | w :: ws, x :: xs => (w ||| x) :: orWords ws xs
  | ws, _ => ws

def union (s t : Bits) : Bits := ⟨orWords (grown s.words t.words.length) t.words⟩

def size (s : Bits) : Nat := s.words.foldl (fun n w => n + onesCount w) 0

def isEmpty (s : Bits) : Bool := s.words.all (· = 0)

/-- The least key of words whose bits start at a key. -/
def firstFrom (start : Nat) : List UInt64 → Option Nat
  | [] => none
  | w :: ws => if w = 0 then firstFrom (start + wordBits) ws else some (start + trailingZeros w)

def first? (s : Bits) : Option Nat := firstFrom 0 s.words

theorem getLsbD_mask {j : Nat} (bound : j < 64) (i : Nat) :
    (mask j).toBitVec.getLsbD i = decide (i = j) := by
  simp only [mask, UInt64.toBitVec_shiftLeft, UInt64.toBitVec_ofNat]
  simp [Nat.mod_eq_of_lt bound]
  grind

theorem getLsbD_withoutBit {j : Nat} (bound : j < 64) (w : UInt64) (i : Nat) :
    (withoutBit w j).toBitVec.getLsbD i = (w.toBitVec.getLsbD i && decide (i ≠ j)) := by
  rw [withoutBit, UInt64.toBitVec_and, UInt64.toBitVec_not, BitVec.getLsbD_and, BitVec.getLsbD_not,
    getLsbD_mask bound]
  by_cases inside : i < 64
  · simp [inside]
  · simp [BitVec.getLsbD_of_ge w.toBitVec i (Nat.le_of_not_lt inside)]

theorem getLsbD_trailingZeros {w : UInt64} (filled : w ≠ 0) :
    w.toBitVec.getLsbD (trailingZeros w) = true := by
  apply BitVec.getLsbD_true_ctz_of_ne_zero
  intro zero
  exact filled (UInt64.toBitVec_inj.mp zero)

theorem trailingZeros_lt {w : UInt64} (filled : w ≠ 0) : trailingZeros w < 64 :=
  BitVec.lt_of_getLsbD (getLsbD_trailingZeros filled)

theorem withoutBit_lt {w : UInt64} (filled : w ≠ 0) :
    (withoutBit w (trailingZeros w)).toNat < w.toNat := by
  apply Nat.lt_of_le_of_ne
  · rw [withoutBit, UInt64.toNat_and]
    exact Nat.and_le_left
  · intro same
    have kept := getLsbD_withoutBit (trailingZeros_lt filled) w (trailingZeros w)
    rw [UInt64.toNat_inj.mp same, getLsbD_trailingZeros filled] at kept
    simp at kept

variable {σ : Type}

/-- Visits the keys of a word whose bits start at a key, the lowest first, up to the first visit that
does not go on. Tells whether to go on behind the word. -/
def visitWord (f : σ → Nat → σ × Bool) (start : Nat) (state : σ) (w : UInt64) : σ × Bool :=
  if w = 0 then (state, true)
  else
    let visited := f state (start + trailingZeros w)
    if visited.2 then visitWord f start visited.1 (withoutBit w (trailingZeros w))
    else (visited.1, false)
termination_by w.toNat
decreasing_by exact withoutBit_lt ‹_›

def visitFrom (f : σ → Nat → σ × Bool) (start : Nat) (state : σ) : List UInt64 → σ
  | [] => state
  | w :: ws =>
    let visited := visitWord f start state w
    if visited.2 then visitFrom f (start + wordBits) visited.1 ws else visited.1

/-- Visits the keys in order with a state, up to the first visit that does not go on. -/
def visit (f : σ → Nat → σ × Bool) (state : σ) (s : Bits) : σ := visitFrom f 0 state s.words

def toList (s : Bits) : List Nat := s.visit (fun ks k => (ks ++ [k], true)) []

end Bits

end ThreeAddress
