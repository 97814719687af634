/-
The lines of a text.
-/
import Mathlib.Data.List.TakeWhile
import Mathlib.Tactic

namespace Lines

variable {α : Type*} [DecidableEq α] (sep : α)

def lines : List α → List (List α)
  | [] => []
  | c :: cs =>
    if c = sep then [c] :: lines cs
    else
      match lines cs with
      | [] => [[c]]
      | line :: rest => (c :: line) :: rest

def body (line : List α) : List α := line.takeWhile (· ≠ sep)

def bodies (text : List α) : List (List α) := (lines sep text).map (body sep)

/-- A list of lines: all of them end with the separator, but for the last one. -/
inductive IsLines : List (List α) → Prop
  | nil : IsLines []
  | last {b : List α} (hne : b ≠ []) (h : sep ∉ b) : IsLines [b]
  | cons {b : List α} {ls : List (List α)} (h : sep ∉ b) (hls : IsLines ls) :
      IsLines ((b ++ [sep]) :: ls)

def Ended (line : List α) : Prop := ∃ b, sep ∉ b ∧ line = b ++ [sep]

variable {sep} {b rest text : List α} {ls ls' : List (List α)}

theorem body_of_notMem (h : sep ∉ b) : body sep b = b :=
  List.takeWhile_eq_self_iff.mpr fun _ hc => decide_eq_true fun heq => h (heq ▸ hc)

theorem body_ended (h : sep ∉ b) : body sep (b ++ [sep]) = b := by
  have hall : ∀ c ∈ b, decide (c ≠ sep) = true :=
    fun c hc => decide_eq_true fun heq => h (heq ▸ hc)
  rw [body, List.takeWhile_append_of_pos hall, List.takeWhile_cons_of_neg (by simp),
    List.append_nil]

theorem notMem_body (line : List α) : sep ∉ body sep line := by
  intro h
  have hne := List.mem_takeWhile_imp h
  exact of_decide_eq_true hne rfl

theorem lines_cons_append (h : sep ∉ b) :
    lines sep (b ++ sep :: rest) = (b ++ [sep]) :: lines sep rest := by
  induction b with
  | nil => exact if_pos rfl
  | cons c b ih =>
    have hc : c ≠ sep := fun heq => h (heq ▸ List.mem_cons_self)
    rw [List.cons_append, lines, if_neg hc, ih fun hb => h (List.mem_cons_of_mem _ hb)]
    rfl

theorem lines_of_notMem (hne : b ≠ []) (h : sep ∉ b) : lines sep b = [b] := by
  induction b with
  | nil => exact absurd rfl hne
  | cons c b ih =>
    have hc : c ≠ sep := fun heq => h (heq ▸ List.mem_cons_self)
    rw [lines, if_neg hc]
    cases b with
    | nil => rfl
    | cons c' b => rw [ih (List.cons_ne_nil _ _) fun hb => h (List.mem_cons_of_mem _ hb)]

theorem lines_flatten (h : IsLines sep ls) : lines sep ls.flatten = ls := by
  induction h with
  | nil => rfl
  | last hne h =>
    rw [List.flatten_cons, List.flatten_nil, List.append_nil]
    exact lines_of_notMem hne h
  | cons h _ ih =>
    rw [List.flatten_cons, List.append_assoc, List.singleton_append, lines_cons_append h, ih]

theorem flatten_lines (text : List α) : (lines sep text).flatten = text := by
  induction text with
  | nil => rfl
  | cons c cs ih =>
    rw [lines]
    by_cases hc : c = sep
    · rw [if_pos hc, List.flatten_cons, ih]
      rfl
    · rw [if_neg hc]
      cases hlines : lines sep cs with
      | nil =>
        rw [hlines] at ih
        exact congrArg _ ih
      | cons line rest =>
        rw [hlines, List.flatten_cons] at ih
        simp only [List.flatten_cons, List.cons_append, ih]

theorem isLines_lines (text : List α) : IsLines sep (lines sep text) := by
  induction text with
  | nil => exact .nil
  | cons c cs ih =>
    rw [lines]
    by_cases hc : c = sep
    · subst hc
      rw [if_pos rfl]
      exact @IsLines.cons _ c [] _ List.not_mem_nil ih
    · have hnot : ∀ {b : List α}, sep ∉ b → sep ∉ c :: b :=
        fun h hb => (List.mem_cons.mp hb).elim (fun heq => hc heq.symm) h
      rw [if_neg hc]
      generalize lines sep cs = ls at ih
      cases ih with
      | nil => exact .last (List.cons_ne_nil _ _) (hnot List.not_mem_nil)
      | last _ h => exact .last (List.cons_ne_nil _ _) (hnot h)
      | @cons b _ h hls => exact IsLines.cons (hnot h) hls

omit [DecidableEq α] in
theorem IsLines.append (h : IsLines sep ls') : ∀ {ls : List (List α)},
    (∀ l ∈ ls, Ended sep l) → IsLines sep (ls ++ ls')
  | [], _ => h
  | l :: ls, hended => by
    obtain ⟨b, hb, rfl⟩ := hended l List.mem_cons_self
    exact .cons hb (h.append fun l' hl' => hended l' (List.mem_cons_of_mem _ hl'))

theorem bodies_flatten (h : IsLines sep ls) : bodies sep ls.flatten = ls.map (body sep) := by
  rw [bodies, lines_flatten h]

theorem lines_append (h : text = [] ∨ text.getLast? = some sep) (rest : List α) :
    lines sep (text ++ rest) = lines sep text ++ lines sep rest := by
  induction text with
  | nil => rfl
  | cons c cs ih =>
    have hcs : cs = [] ∨ cs.getLast? = some sep := by
      rcases cs with _ | ⟨c', cs⟩
      · exact Or.inl rfl
      · refine Or.inr ?_
        rw [List.getLast?_cons_cons] at h
        exact h.resolve_left (List.cons_ne_nil _ _)
    rw [List.cons_append, lines, lines, ih hcs]
    by_cases hc : c = sep
    · rw [if_pos hc, if_pos hc, List.cons_append]
    · rw [if_neg hc, if_neg hc]
      cases hlines : lines sep cs with
      | nil =>
        have hnil : cs = [] := by rw [← @flatten_lines _ _ sep cs, hlines, List.flatten_nil]
        rw [hnil, List.getLast?_singleton] at h
        exact absurd (Option.some.inj (h.resolve_left (List.cons_ne_nil _ _))) hc
      | cons line rest' => rfl

theorem bodies_concat (hne : text ≠ []) (h : text.getLast? ≠ some sep) :
    bodies sep (text ++ [sep]) = bodies sep text := by
  induction text with
  | nil => exact absurd rfl hne
  | cons c cs ih =>
    rcases cs with _ | ⟨c', cs⟩
    · have hc : c ≠ sep := fun heq => h (heq ▸ rfl)
      have hb : sep ∉ [c] := by
        rw [List.mem_singleton]
        exact hc.symm
      rw [bodies, bodies, lines_cons_append hb, lines_of_notMem (List.cons_ne_nil _ _) hb]
      simp only [lines, List.map_cons, List.map_nil, body_ended hb, body_of_notMem hb]
    · rw [List.getLast?_cons_cons] at h
      have hih := ih (List.cons_ne_nil _ _) h
      rw [bodies, bodies] at hih ⊢
      rw [List.cons_append, lines, lines]
      by_cases hc : c = sep
      · rw [if_pos hc, if_pos hc, List.map_cons, List.map_cons, hih]
      · rw [if_neg hc, if_neg hc]
        -- both have a first line, with the same body
        have hsome : ∀ text : List α, text ≠ [] → lines sep text ≠ [] := by
          intro text hne hnil
          exact hne (by rw [← @flatten_lines _ _ sep text, hnil, List.flatten_nil])
        cases hl : lines sep (c' :: cs) with
        | nil => exact absurd hl (hsome _ (List.cons_ne_nil _ _))
        | cons line rest =>
          cases hl' : lines sep (c' :: cs ++ [sep]) with
          | nil => exact absurd hl' (hsome _ (List.cons_ne_nil _ _))
          | cons line' rest' =>
            rw [hl, hl', List.map_cons, List.map_cons] at hih
            obtain ⟨hline, hrest⟩ := List.cons.inj hih
            have hpush : ∀ line : List α, body sep (c :: line) = c :: body sep line :=
              fun line => List.takeWhile_cons_of_pos (decide_eq_true hc)
            rw [List.map_cons, List.map_cons, hpush, hpush, hline, hrest]

end Lines
