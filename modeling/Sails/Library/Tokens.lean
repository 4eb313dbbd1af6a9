import Mathlib.Data.List.Basic
import Mathlib.Data.List.TakeWhile

/-!
# Tokens between delimiters

The maximal non-empty runs of a list that are free of delimiters, as `strtok` finds them one after
the other.

- `tokens_append_cons`: a delimiter cuts the list; everything about `tokens` follows from it and
  `tokens_eq_single`
- `tokens_append_of_two`: a token that is not the last one is not changed by what follows
- `flatten_tokens`: together they are what is no delimiter
- `Followed`: a symbol that always has another behind it, in the tokens if in the list
-/

namespace Tokens

variable {α : Type*} {p : α → Bool} {l t a' b' : List α} {a b d : α}

/-- The tokens of a list; `p` tells the delimiters. -/
def tokens (p : α → Bool) (l : List α) : List (List α) := (l.splitOnP p).filter fun t => !t.isEmpty

theorem tokens_nil : tokens p [] = [] := by
  rw [tokens, List.splitOnP_nil]
  rfl

theorem tokens_append_cons (hd : p d = true) (l r : List α) :
    tokens p (l ++ d :: r) = tokens p l ++ tokens p r := by
  rw [tokens, List.splitOnP_append_cons l r hd, List.filter_append]
  rfl

theorem tokens_cons_of_pos (hd : p d = true) (l : List α) : tokens p (d :: l) = tokens p l := by
  have h := tokens_append_cons hd [] l
  rwa [List.nil_append, tokens_nil, List.nil_append] at h

theorem tokens_eq_single (hne : l ≠ []) (h : ∀ c ∈ l, p c = false) : tokens p l = [l] := by
  rw [tokens, List.splitOnP_eq_singleton h]
  simp [hne]

/-- The pieces of a list without a first symbol. -/
theorem splitOnP_cons_of_not {c : α} (hc : p c = false) (l : List α) :
    ∃ piece pieces, l.splitOnP p = piece :: pieces ∧
      (c :: l).splitOnP p = (c :: piece) :: pieces := by
  obtain ⟨piece, pieces, hpieces⟩ := List.exists_cons_of_ne_nil (List.splitOnP_ne_nil p l)
  refine ⟨piece, pieces, hpieces, ?_⟩
  rw [List.splitOnP_cons_eq_if_modifyHead, if_neg (by simp [hc]), hpieces, List.modifyHead_cons]

theorem splitOnP_cons_of_pos {c : α} (hc : p c = true) (l : List α) :
    (c :: l).splitOnP p = [] :: l.splitOnP p := by
  rw [List.splitOnP_cons_eq_if_modifyHead, if_pos hc]

/-- What relates a list to its pieces, symbol by symbol: the empty piece, a piece further on, and
the first piece with one more symbol in front. -/
theorem splitOnP_induction {R : List α → List α → Prop} (empty : ∀ l, R l [])
    (skip : ∀ x l t, R l t → R (x :: l) t)
    (keep : ∀ x l piece pieces, p x = false → l.splitOnP p = piece :: pieces → R l piece →
      R (x :: l) (x :: piece))
    (ht : t ∈ l.splitOnP p) : R l t := by
  induction l generalizing t with
  | nil =>
    rw [List.splitOnP_nil, List.mem_singleton] at ht
    exact ht ▸ empty []
  | cons x l ih =>
    by_cases hx : p x = true
    · rw [splitOnP_cons_of_pos hx] at ht
      rcases List.mem_cons.mp ht with rfl | ht
      · exact empty _
      · exact skip x l t (ih ht)
    · rw [Bool.not_eq_true] at hx
      obtain ⟨piece, pieces, hl, hcons⟩ := splitOnP_cons_of_not hx l
      rw [hcons] at ht
      rcases List.mem_cons.mp ht with rfl | ht
      · exact keep x l piece pieces hx hl (ih (hl ▸ List.mem_cons_self ..))
      · exact skip x l t (ih (hl ▸ List.mem_cons_of_mem _ ht))

theorem mem_splitOnP_of_mem_tokens (ht : t ∈ tokens p l) : t ∈ l.splitOnP p :=
  (List.mem_filter.mp ht).1

theorem ne_nil_of_mem_tokens (ht : t ∈ tokens p l) : t ≠ [] := by
  simpa using (List.mem_filter.mp ht).2

theorem not_of_mem_tokens (ht : t ∈ tokens p l) : ∀ c ∈ t, p c = false := by
  refine splitOnP_induction (R := fun _ t => ∀ c ∈ t, p c = false) ?_ ?_ ?_
    (mem_splitOnP_of_mem_tokens ht)
  · intro l c hc
    cases hc
  · exact fun _ _ _ ih => ih
  · intro x l piece pieces hx _ ih c hc
    rcases List.mem_cons.mp hc with rfl | hc
    · exact hx
    · exact ih c hc

theorem mem_of_mem_tokens (ht : t ∈ tokens p l) : ∀ c ∈ t, c ∈ l := by
  refine splitOnP_induction (R := fun l t => ∀ c ∈ t, c ∈ l) ?_ ?_ ?_
    (mem_splitOnP_of_mem_tokens ht)
  · intro l c hc
    cases hc
  · exact fun x l t ih c hc => List.mem_cons_of_mem _ (ih c hc)
  · intro x l piece pieces _ _ ih c hc
    rcases List.mem_cons.mp hc with rfl | hc
    · exact List.mem_cons_self ..
    · exact List.mem_cons_of_mem _ (ih c hc)

/-- A delimiter at the end changes nothing. -/
theorem tokens_concat (hd : p d = true) (l : List α) : tokens p (l ++ [d]) = tokens p l := by
  rw [tokens_append_cons hd, tokens_nil, List.append_nil]

/-- The tokens together: the list without its delimiters. -/
theorem flatten_tokens (l : List α) : (tokens p l).flatten = l.filter fun c => !p c := by
  rw [tokens, List.flatten_filter_not_isEmpty]
  induction l with
  | nil => rfl
  | cons x l ih =>
    by_cases hx : p x = true
    · rw [splitOnP_cons_of_pos hx, List.flatten_cons, List.nil_append, ih,
        List.filter_cons_of_neg (by simp [hx])]
    · rw [Bool.not_eq_true] at hx
      obtain ⟨piece, pieces, hl, hcons⟩ := splitOnP_cons_of_not hx l
      rw [hl] at ih
      rw [hcons, List.filter_cons_of_pos (by simp [hx]), ← ih]
      rfl

/-- A symbol that is only the last of a list is only the last of its tokens. -/
theorem not_mem_dropLast_of_mem_tokens (h : a ∉ l.dropLast) (ht : t ∈ tokens p l) :
    a ∉ t.dropLast := by
  refine splitOnP_induction (R := fun l t => a ∉ l.dropLast → a ∉ t.dropLast) ?_ ?_ ?_
    (mem_splitOnP_of_mem_tokens ht) h
  · simp
  · intro x l t ih hl
    refine ih fun ha => hl ?_
    cases l with
    | nil => cases ha
    | cons y l => exact List.mem_cons_of_mem _ ha
  · intro x l piece pieces _ hpieces ih hl ha
    cases l with
    | nil =>
      rw [List.splitOnP_nil] at hpieces
      cases hpieces
      cases ha
    | cons y l =>
      obtain ⟨hne, hrest⟩ := not_or.mp (mt List.mem_cons.mpr hl)
      cases piece with
      | nil => cases ha
      | cons z piece =>
        rcases List.mem_cons.mp ha with rfl | ha
        · exact hne rfl
        · exact ih hrest ha

/-- A token that has another one behind it does not depend on what follows. -/
theorem tokens_append_of_two {rest : List (List α)} (h : tokens p l = a' :: b' :: rest)
    (r : List α) : ∃ rest', tokens p (l ++ r) = a' :: rest' := by
  induction l with
  | nil => cases h
  | cons x l ih =>
    by_cases hx : p x = true
    · rw [tokens_cons_of_pos hx] at h
      rw [List.cons_append, tokens_cons_of_pos hx]
      exact ih h
    -- the token begins here, and ends at the next delimiter
    · have hsplit := List.takeWhile_append_dropWhile (p := fun c => !p c) (l := x :: l)
      have hfront : ∀ c ∈ (x :: l).takeWhile fun c => !p c, p c = false := fun c hc => by
        simpa using List.mem_takeWhile_imp hc
      have hne : (x :: l).takeWhile (fun c => !p c) ≠ [] := by simp [hx]
      have hsingle := tokens_eq_single hne hfront
      cases hdrop : (x :: l).dropWhile fun c => !p c with
      | nil =>
        rw [hdrop, List.append_nil] at hsplit
        rw [hsplit, h] at hsingle
        cases hsingle
      | cons d l' =>
        have hd : p d = true := by
          have hhead := List.head?_dropWhile_not (fun c => !p c) (x :: l)
          rw [hdrop] at hhead
          simpa using hhead
        rw [hdrop] at hsplit
        rw [← hsplit, tokens_append_cons hd, hsingle] at h
        obtain ⟨rfl, -⟩ := List.cons.inj h
        refine ⟨tokens p (l' ++ r), ?_⟩
        rw [← hsplit, List.append_assoc, List.cons_append, tokens_append_cons hd, hsplit, hsingle]
        rfl

/-! ## A symbol that always follows another -/

/-- Behind every `a` there is a `b`. -/
def Followed (a b : α) : List α → Prop
  | [] => True
  | c :: l => (c = a → l.head? = some b) ∧ Followed a b l

theorem Followed.of_mem_tokens (hb : p b = false) (h : Followed a b l) (ht : t ∈ tokens p l) :
    Followed a b t := by
  refine splitOnP_induction (R := fun l t => Followed a b l → Followed a b t) ?_ ?_ ?_
    (mem_splitOnP_of_mem_tokens ht) h
  · exact fun _ _ => trivial
  · exact fun x l t ih hl => ih hl.2
  · rintro x l piece pieces - hpieces ih ⟨hx, hl⟩
    refine ⟨fun hxa => ?_, ih hl⟩
    -- the `b` behind `x` is no delimiter, so it is in the same piece
    obtain ⟨r, rfl⟩ : ∃ r, l = b :: r := by
      cases l with
      | nil => cases hx hxa
      | cons c r => exact ⟨r, by rw [Option.some.inj (hx hxa)]⟩
    obtain ⟨piece', pieces', -, hcons'⟩ := splitOnP_cons_of_not hb r
    rw [hcons'] at hpieces
    cases hpieces
    rfl

/-- If the `b` is a delimiter, the `a` ends its token. -/
theorem Followed.not_mem_dropLast (hb : p b = true) (h : Followed a b l) (ht : t ∈ tokens p l) :
    a ∉ t.dropLast := by
  refine splitOnP_induction (R := fun l t => Followed a b l → a ∉ t.dropLast) ?_ ?_ ?_
    (mem_splitOnP_of_mem_tokens ht) h
  · simp
  · exact fun x l t ih hl => ih hl.2
  · rintro x l piece pieces - hpieces ih ⟨hx, hl⟩ ha
    cases piece with
    | nil => cases ha
    | cons z piece =>
      rcases List.mem_cons.mp ha with rfl | ha
      -- behind this `a` the piece would end
      · obtain ⟨r, rfl⟩ : ∃ r, l = b :: r := by
          cases l with
          | nil => cases hx rfl
          | cons c r => exact ⟨r, by rw [Option.some.inj (hx rfl)]⟩
        rw [splitOnP_cons_of_pos hb] at hpieces
        cases hpieces
      · exact ih hl ha

theorem Followed.append (hl : Followed a b l) (ht : Followed a b t) : Followed a b (l ++ t) := by
  induction l with
  | nil => exact ht
  | cons c l ih =>
    refine ⟨fun hc => ?_, ih hl.2⟩
    have hhead : (l ++ t).head? = some b := by
      rw [List.head?_append, hl.1 hc]
      rfl
    exact hhead

/-- Then there are at least as many `b` as `a`. -/
theorem Followed.count_le [BEq α] [LawfulBEq α] (hab : a ≠ b) (h : Followed a b l) :
    l.count a ≤ l.count b := by
  -- a list that begins with the `b` of an `a` in front of it has one `b` more
  have hstep : ∀ l : List α, Followed a b l →
      l.count a ≤ l.count b ∧ (l.head? = some b → l.count a + 1 ≤ l.count b) := by
    intro l
    induction l with
    | nil => simp
    | cons c l ih =>
      rintro ⟨hc, hl⟩
      obtain ⟨hle, hlt⟩ := ih hl
      by_cases hca : c = a
      · have hmore := hlt (hc hca)
        subst hca
        simp [hab]
        omega
      · by_cases hcb : c = b
        · subst hcb
          simp [hca]
          omega
        · simp [hca, hcb]
          omega
  exact (hstep l h).1

end Tokens
