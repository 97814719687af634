/-
Descriptors and streams of a C library.

A descriptor is a byte sequence and an offset in it.  A stream is a descriptor with a
byte that may have been pushed back and the indicator for the end of the file.
-/
import Mathlib.Data.List.Basic
import Mathlib.Tactic

namespace CStream

variable {β : Type*}

/-- An open descriptor.  A `read` gives at most `chunk + 1` bytes at once. -/
structure Desc (β : Type*) where
  content : List β
  offset : ℕ
  readable : Bool
  seekable : Bool
  chunk : ℕ

namespace Desc

def ahead (d : Desc β) : List β := if d.readable then d.content.drop d.offset else []

def advance (d : Desc β) (n : ℕ) : Desc β := { d with offset := d.offset + n }

/-- `read`; nothing is the end of the file, or an error. -/
def read (d : Desc β) (n : ℕ) : List β × Desc β :=
  (d.ahead.take (min n (d.chunk + 1)), d.advance (min (min n (d.chunk + 1)) d.ahead.length))

/-- Where an offset counts from: `SEEK_SET`, `SEEK_CUR`, `SEEK_END`. -/
def base (d : Desc β) : ℕ → Option ℤ
  | 0 => some 0
  | 1 => some d.offset
  | 2 => some d.content.length
  | _ => none

/-- `lseek`; a pipe has no offset. -/
def lseek (d : Desc β) (off : ℤ) (origin : ℕ) : Option (Desc β) :=
  if d.seekable then
    (d.base origin).bind fun b =>
      if 0 ≤ b + off then some { d with offset := (b + off).toNat } else none
  else none

variable {d : Desc β} {n : ℕ}

@[simp] theorem advance_zero (d : Desc β) : d.advance 0 = d := rfl

theorem advance_advance (d : Desc β) (m n : ℕ) : (d.advance m).advance n = d.advance (m + n) := by
  rw [advance, advance, advance, Nat.add_assoc]

theorem ahead_advance (d : Desc β) (n : ℕ) : (d.advance n).ahead = d.ahead.drop n := by
  rw [ahead, ahead, advance]
  split_ifs
  · rw [List.drop_drop]
  · rw [List.drop_nil]

theorem lseek_here (d : Desc β) : d.lseek 0 1 = if d.seekable then some d else none := by
  rw [lseek, base, Option.bind_some, Int.add_zero, if_pos (Int.natCast_nonneg _), Int.toNat_natCast]

theorem seekable_of_lseek_start (h : d.lseek 0 0 = none) : d.seekable = false := by
  rw [lseek, base, Option.bind_some, Int.add_zero, if_pos le_rfl] at h
  split_ifs at h with hseek
  exact Bool.not_eq_true _ ▸ hseek

theorem read_cases (hn : 0 < n) :
    (d.ahead = [] ∧ d.read n = ([], d)) ∨
      ∃ k, 0 < k ∧ k ≤ n ∧ k ≤ d.ahead.length ∧ d.read n = (d.ahead.take k, d.advance k) := by
  cases hahead : d.ahead with
  | nil =>
    refine .inl ⟨rfl, ?_⟩
    rw [read, hahead, List.take_nil, List.length_nil, Nat.min_zero, advance_zero]
  | cons c rest =>
    refine .inr ⟨min (min n (d.chunk + 1)) d.ahead.length, ?_, ?_, ?_, ?_⟩
    · rw [hahead, List.length_cons]
      omega
    · omega
    · rw [hahead]
      exact min_le_right _ _
    · rw [read, ← hahead, List.take_eq_take_min (i := min n (d.chunk + 1))]

end Desc

structure Stream (β : Type*) where
  desc : Desc β
  pushed : Option β
  eof : Bool

namespace Stream

/-- The bytes still to be delivered, the one that was pushed back in front. -/
def remaining (st : Stream β) : List β := st.pushed.toList ++ st.desc.ahead

def position (st : Stream β) : ℤ := st.desc.offset - st.pushed.toList.length

/-- The next `n` bytes; at the end of the file there are fewer. -/
def take (st : Stream β) (n : ℕ) : List β × Stream β :=
  (st.remaining.take n,
    { desc := st.desc.advance ((st.remaining.take n).length - st.pushed.toList.length)
      pushed := if n = 0 then st.pushed else none
      eof := st.eof || decide (st.remaining.length < n) })

/-- How many bytes make a line of at most `m`. -/
def lineLength (p : β → Bool) : ℕ → List β → ℕ
  | 0, _ => 0
  | m + 1, [] => m + 1
  | m + 1, c :: bs => if p c then 1 else lineLength p m bs + 1

/-- The next line, up to a byte that ends lines, and of at most `m` bytes. -/
def gets (st : Stream β) (p : β → Bool) (m : ℕ) : List β × Stream β :=
  st.take (lineLength p m st.remaining)

def unget (st : Stream β) (c : β) : Option (Stream β) :=
  if st.pushed.isSome then none else some { st with pushed := some c, eof := false }

def seek (st : Stream β) (off : ℤ) (origin : ℕ) : Option (Stream β) :=
  let back : ℤ := if origin = 1 then st.pushed.toList.length else 0
  (st.desc.lseek (off - back) origin).map fun d => ⟨d, none, false⟩

variable {st : Stream β} {m n : ℕ} {p : β → Bool}

theorem fst_take (st : Stream β) (n : ℕ) : (st.take n).1 = st.remaining.take n := rfl

@[simp] theorem take_zero (st : Stream β) : st.take 0 = ([], st) := by
  rw [take, List.take_zero, List.length_nil, Nat.zero_sub, Desc.advance_zero, if_pos rfl,
    decide_eq_false (Nat.not_lt_zero _), Bool.or_false]

theorem remaining_take (st : Stream β) (n : ℕ) :
    (st.take n).2.remaining = st.remaining.drop n := by
  cases n with
  | zero => rw [take_zero, List.drop_zero]
  | succ n =>
    rw [remaining, take]
    dsimp only
    rw [if_neg (Nat.succ_ne_zero n), Option.toList_none, List.nil_append, Desc.ahead_advance,
      remaining]
    cases st.pushed with
    | none =>
      rw [Option.toList_none, List.nil_append, List.length_nil, Nat.sub_zero, List.length_take]
      by_cases hn : n + 1 ≤ st.desc.ahead.length
      · rw [min_eq_left hn]
      · rw [min_eq_right (by omega), List.drop_length, List.drop_eq_nil_of_le (by omega)]
    | some c =>
      rw [Option.toList_some, List.singleton_append, List.take_succ_cons, List.drop_succ_cons,
        List.length_cons, List.length_singleton, Nat.add_sub_cancel, List.length_take]
      by_cases hn : n ≤ st.desc.ahead.length
      · rw [min_eq_left hn]
      · rw [min_eq_right (by omega), List.drop_length, List.drop_eq_nil_of_le (by omega)]

theorem take_append_remaining (st : Stream β) (n : ℕ) :
    (st.take n).1 ++ (st.take n).2.remaining = st.remaining := by
  rw [remaining_take, take, List.take_append_drop]

theorem length_pushed_le (st : Stream β) :
    st.pushed.toList.length ≤ 1 ∧ st.pushed.toList.length ≤ st.remaining.length := by
  refine ⟨?_, by rw [remaining, List.length_append]; omega⟩
  cases st.pushed <;> simp

theorem take_add (st : Stream β) (m n : ℕ) :
    st.take (m + n) = ((st.take m).1 ++ ((st.take m).2.take n).1, ((st.take m).2.take n).2) := by
  rcases Nat.eq_zero_or_pos m with rfl | hm
  · rw [take_zero, Nat.zero_add, List.nil_append]
  · obtain ⟨hone, hle⟩ := length_pushed_le st
    have hnext := remaining_take st m
    have hgone : (st.take m).2.pushed = none := if_neg hm.ne'
    have hdesc : (st.take m).2.desc =
      st.desc.advance ((st.remaining.take m).length - st.pushed.toList.length) := rfl
    have heof : (st.take m).2.eof = (st.eof || decide (st.remaining.length < m)) := rfl
    rw [take, fst_take, take.eq_def (st.take m).2, hnext, hgone, hdesc, heof, Desc.advance_advance,
      List.length_take, List.length_take, List.length_take, List.length_drop, Option.toList_none,
      List.length_nil, if_neg (by omega), ite_self, Bool.or_assoc, ← Bool.decide_or, List.take_add]
    refine Prod.ext rfl ((Stream.mk.injEq ..).mpr ⟨?_, rfl, ?_⟩)
    · congr 1
      omega
    · congr 2
      exact propext (by omega)

theorem take_of_pushed (hpushed : st.pushed = none)
    (hthere : n ≤ st.remaining.length ∨ st.eof = true) :
    st.take n =
      (st.desc.ahead.take n, ⟨st.desc.advance (min n st.desc.ahead.length), none, st.eof⟩) := by
  have hrem : st.remaining = st.desc.ahead := by rw [remaining, hpushed]; rfl
  have heof : (st.eof || decide (st.desc.ahead.length < n)) = st.eof := by
    rw [hrem] at hthere
    rcases hthere with hlen | heof
    · rw [decide_eq_false (Nat.not_lt.mpr hlen), Bool.or_false]
    · rw [heof, Bool.true_or]
  rw [take, hrem, heof, hpushed, ite_self, List.length_take, Option.toList_none, List.length_nil,
    Nat.sub_zero]

theorem gets_zero (st : Stream β) (p : β → Bool) : st.gets p 0 = ([], st) := by
  rw [gets, lineLength, take_zero]

theorem gets_succ (st : Stream β) (p : β → Bool) (m : ℕ) :
    st.gets p (m + 1) =
      match (st.take 1).1 with
      | [] => ([], (st.take 1).2)
      | c :: _ =>
        if p c then ([c], (st.take 1).2)
        else (c :: ((st.take 1).2.gets p m).1, ((st.take 1).2.gets p m).2) := by
  have hnext := remaining_take st 1
  rw [gets]
  cases hrem : st.remaining with
  | nil =>
    rw [fst_take, hrem, lineLength, take, take, hrem]
    rfl
  | cons c bs =>
    rw [hrem, List.drop_one, List.tail_cons] at hnext
    rw [fst_take, hrem, lineLength]
    dsimp only [List.take_succ_cons]
    split_ifs with hc
    · rw [take, hrem]
      rfl
    · rw [Nat.add_comm, take_add, gets, hnext, fst_take, hrem]
      rfl

end Stream

end CStream
