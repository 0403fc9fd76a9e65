-- A consumer that takes blocks of `n` off a buffer that grows. However its input
-- is cut, it takes the blocks of the whole input, in order, and leaves the rest
-- in the buffer.
import LadTranslate.Blocks

open blocks

namespace feeds

variable {α σ ε : Type*}

/-- Takes blocks while there are any, up to a number of turns. With blocks of
nothing the loop never ends. -/
def drain (n : Nat) (f : σ → List α → Except ε σ) :
    Nat → List α → σ → Option (Except ε (List α × σ))
  | 0, _, _ => none
  | fuel + 1, buffer, s =>
    if n ≤ buffer.length then
      match f s (buffer.take n) with
      | .error e => some (.error e)
      | .ok s => drain n f fuel (buffer.drop n) s
    else some (.ok (buffer, s))

/-- Each input joins the buffer, and the blocks are taken. -/
def feedAll (n : Nat) (f : σ → List α → Except ε σ) :
    List (List α) → List α → σ → Option (Except ε (List α × σ))
  | [], buffer, s => some (.ok (buffer, s))
  | x :: xs, buffer, s =>
    match drain n f ((buffer ++ x).length + 1) (buffer ++ x) s with
    | none => none
    | some (.error e) => some (.error e)
    | some (.ok (buffer, s)) => feedAll n f xs buffer s

variable {n : Nat} {f : σ → List α → Except ε σ}

/-- The loop takes the full blocks of the buffer. -/
theorem drain_eq (hn : 0 < n) {fuel : Nat} {buffer : List α} (hfuel : buffer.length < fuel) (s : σ) :
    drain n f fuel buffer s =
      some (((fullBlocks n buffer).foldlM f s).map fun s => (leftover n buffer, s)) := by
  induction fuel generalizing buffer s with
  | zero => omega
  | succ fuel ih =>
    rw [drain]
    split
    · rename_i hle
      rw [fullBlocks_of_le hn hle, leftover_of_le hn hle, List.foldlM_cons]
      cases hf : f s (buffer.take n) with
      | error e => rfl
      | ok s' =>
        have hshort : (buffer.drop n).length < fuel := by
          rw [List.length_drop]
          omega
        exact ih hshort s'
    · rename_i hlt
      rw [fullBlocks_of_lt (not_le.mp hlt), leftover_of_lt (not_le.mp hlt)]
      rfl

theorem leftover_length (hn : 0 < n) (l : List α) : (leftover n l).length < n := by
  rw [leftover, List.length_drop, ← Nat.mod_eq_sub_div_mul]
  exact Nat.mod_lt _ hn

/-- The inputs in turn, or all of them at once: the same blocks are taken. -/
theorem feedAll_eq (hn : 0 < n) (xs : List (List α)) {buffer : List α} (hbuffer : buffer.length < n)
    (s : σ) :
    feedAll n f xs buffer s =
      some (((fullBlocks n (buffer ++ xs.flatten)).foldlM f s).map fun s =>
        (leftover n (buffer ++ xs.flatten), s)) := by
  induction xs generalizing buffer s with
  | nil =>
    rw [List.flatten_nil, List.append_nil, fullBlocks_of_lt hbuffer, leftover_of_lt hbuffer]
    rfl
  | cons x xs ih =>
    have hblocks := fullBlocks_append hn (buffer ++ x) xs.flatten
    have hrest := leftover_append hn (buffer ++ x) xs.flatten
    rw [feedAll, drain_eq hn (Nat.lt_succ_self _), List.flatten_cons, ← List.append_assoc, hblocks,
      hrest, List.foldlM_append]
    cases hf : (fullBlocks n (buffer ++ x)).foldlM f s with
    | error e => rfl
    | ok s' => exact ih (leftover_length hn _) s'

end feeds
