/-
Machines that take inputs one at a time and answer each with any number of outputs. A run over
two lists in a row is a run over the first and then, from where that ended, one over the second:
it does not matter how the inputs are cut into pieces.
-/

namespace LoopAsm.Transducer

variable {σ ι ο : Type}

/-- Takes one more input. -/
def advance (step : σ → ι → σ × List ο) (done : σ × Array ο) (x : ι) : σ × Array ο :=
  let next := step done.1 x
  (next.1, done.2 ++ next.2)

/-- Takes inputs one after the other: the state behind them, and all outputs in order. -/
def run (step : σ → ι → σ × List ο) (s : σ) (xs : List ι) : σ × Array ο :=
  xs.foldl (advance step) (s, #[])

theorem foldl_advance (step : σ → ι → σ × List ο) (s : σ) (out : Array ο) (xs : List ι) :
    xs.foldl (advance step) (s, out) = ((run step s xs).1, out ++ (run step s xs).2) := by
  unfold run
  induction xs generalizing s out with
  | nil => simp
  | cons x xs ih =>
    rw [List.foldl_cons, List.foldl_cons, advance, advance, ih, ih (step s x).1 (#[] ++ _)]
    simp [← Array.toList_inj]

@[simp] theorem run_nil (step : σ → ι → σ × List ο) (s : σ) : run step s [] = (s, #[]) := rfl

theorem run_cons (step : σ → ι → σ × List ο) (s : σ) (x : ι) (xs : List ι) :
    run step s (x :: xs) =
      ((run step (step s x).1 xs).1, (step s x).2.toArray ++ (run step (step s x).1 xs).2) := by
  rw [run, List.foldl_cons, advance, foldl_advance]
  simp

theorem run_append (step : σ → ι → σ × List ο) (s : σ) (xs ys : List ι) :
    run step s (xs ++ ys) =
      ((run step (run step s xs).1 ys).1, (run step s xs).2 ++ (run step (run step s xs).1 ys).2) := by
  rw [run, List.foldl_append, foldl_advance, foldl_advance]
  simp

/-- What every step keeps, a run keeps. -/
theorem run_invariant {step : σ → ι → σ × List ο} {P : σ → Prop}
    (hstep : ∀ s x, P s → P (step s x).1) {s : σ} (hs : P s) (xs : List ι) :
    P (run step s xs).1 := by
  induction xs generalizing s with
  | nil => exact hs
  | cons x xs ih =>
    rw [run_cons]
    exact ih (hstep s x hs)

end LoopAsm.Transducer
