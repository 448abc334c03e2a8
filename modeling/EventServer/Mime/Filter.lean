import EventServer.Lib.Machine
import EventServer.Stream.IMemFile

/-!
# MIME filters

`A, B = f(C, D)` of `mime.c`: the filter appends to `A` what it can make of `C` and `D`,
and what it has to hold back is `B`, which a script passes on with the next piece. A last
call without `D` ends the text. `nil` is `none`.
-/
namespace EventServer.Mime

open EventServer.Lib.Machine EventServer.Stream

/-- The result of a last call: `nil` is pushed over a string whose first byte is zero,
an empty one included. -/
def lastResult (buffer : List Byte) : Option (List Byte) :=
  if buffer.headD 0 = 0 then none else some buffer

/-- What `mime_global_b64`, `mime_global_unb64`, `mime_global_qp` and `mime_global_unqp` do with
their own steps. `pad` is what is appended for the bytes held back at the end. -/
def filter (step : List Byte → Byte → List Byte × List Byte) (pad : List Byte → List Byte)
    (C D : Option (List Byte)) : Option (List Byte) × Option (List Byte) :=
  match C with
  | none => (none, none)
  | some input =>
    let (atom, buffer) := run step [] input
    match D with
    | none => (lastResult (buffer ++ pad atom), none)
    | some input =>
      let (atom, more) := run step atom input
      (some (buffer ++ more), some atom)

/-- A script filters a text that comes in pieces and ends it. -/
def pump (f : Option (List Byte) → Option (List Byte) → Option (List Byte) × Option (List Byte)) :
    Option (List Byte) → List (List Byte) → List Byte
  | C, [] => (f C none).1.getD []
  | C, piece :: pieces =>
    let (A, B) := f C (some piece)
    A.getD [] ++ pump f B pieces

/-- The same for the functions that are called `A, n = f(n, B)`. -/
def feed {σ : Type} (f : σ → Option (List Byte) → Option (List Byte) × σ) :
    σ → List (List Byte) → List Byte
  | n, [] => (f n none).1.getD []
  | n, piece :: pieces =>
    let (A, n) := f n (some piece)
    A.getD [] ++ feed f n pieces

theorem lastResult_getD {buffer : List Byte} (h : buffer.headD 0 = 0 → buffer = []) :
    (lastResult buffer).getD [] = buffer := by
  unfold lastResult
  split
  · rename_i hzero
    rw [h hzero]
    rfl
  · rfl

theorem filter_last (step : List Byte → Byte → List Byte × List Byte) (pad : List Byte → List Byte)
    (input : List Byte) : filter step pad (some input) none =
      (lastResult ((run step [] input).2 ++ pad (run step [] input).1), none) := rfl

section Pump

variable {step : List Byte → Byte → List Byte × List Byte} {pad : List Byte → List Byte}
  {P : List Byte → Prop} (hkeep : ∀ p c, P p → P (step p c).1)
  (hreread : ∀ p, P p → run step [] p = (p, []))

include hreread

/-- Bytes that were held back are held back again by the next call. -/
theorem filter_next {p : List Byte} (hp : P p) (piece : List Byte) :
    filter step pad (some p) (some piece) =
      (some (run step p piece).2, some (run step p piece).1) := by
  simp only [filter, hreread p hp, List.nil_append]

theorem filter_last_held {p : List Byte} (hp : P p) :
    filter step pad (some p) none = (lastResult (pad p), none) := by
  rw [filter_last, hreread p hp, List.nil_append]

include hkeep

/-- It makes no difference where the text was cut. -/
theorem pump_filter {p : List Byte} (hp : P p) (pieces : List (List Byte)) :
    pump (filter step pad) (some p) pieces =
      (run step p pieces.flatten).2 ++ (lastResult (pad (run step p pieces.flatten).1)).getD [] := by
  induction pieces generalizing p with
  | nil => rw [pump, filter_last_held hreread hp, List.flatten_nil, run_nil, List.nil_append]
  | cons piece pieces ih =>
    rw [pump, filter_next hreread hp, List.flatten_cons, run_append, List.append_assoc,
      ← ih (run_keeps hkeep hp piece)]
    rfl

end Pump

/-- Calls that run a machine from the state the last call returned. -/
theorem feed_run {σ : Type} {f : σ → Option (List Byte) → Option (List Byte) × σ}
    (step : σ → Byte → σ × List Byte)
    (hf : ∀ n piece, f n (some piece) = (some (run step n piece).2, (run step n piece).1)) (n : σ)
    (pieces : List (List Byte)) :
    feed f n pieces =
      (run step n pieces.flatten).2 ++ (f (run step n pieces.flatten).1 none).1.getD [] := by
  induction pieces generalizing n with
  | nil => rfl
  | cons piece pieces ih =>
    rw [feed, hf, List.flatten_cons, run_append, List.append_assoc, ← ih]
    rfl

end EventServer.Mime
