import BrilKit.Fault

/-!
# Repeating a step

Work lists and other loops: a step is repeated until a state is final. The number of steps is
limited by a bound; a run that does not end within it is `unsettled`. `trail` lists the states
that `run` goes through.
-/

namespace BrilKit

namespace Iterate

variable {σ : Type}

def run (isFinal : σ → Bool) (step : σ → Outcome σ) : Nat → σ → Outcome σ
  | 0, _ => .error .unsettled
  | fuel + 1, s => if isFinal s then .ok s else do run isFinal step fuel (← step s)

def trail (isFinal : σ → Bool) (step : σ → Outcome σ) : Nat → σ → Outcome (List σ)
  | 0, _ => .error .unsettled
  | fuel + 1, s =>
    if isFinal s then .ok [s] else do return s :: (← trail isFinal step fuel (← step s))

def pairs (states : List σ) : List (σ × σ) := states.zip states.tail

end Iterate

end BrilKit
