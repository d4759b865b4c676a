import Mathlib.Data.List.Induction
import Mathlib.Data.List.Pairwise
import MultipleDispatch.Classes

/-!
What sorting into classes guarantees. The invariant `Classified` says that the classes hold the
elements read so far, each once, that whoever joined a class is the same as its first member, and
that the first members differ from one another. One insertion keeps it, so `classify` establishes it
for any test whatever.
-/

namespace MultipleDispatch

variable {α : Type} {same : α → α → Bool}

/-- The classes `cs` are what the elements `xs` have been sorted into. -/
structure Classified (same : α → α → Bool) (xs : List α) (cs : List (Class α)) : Prop where
  /-- The classes hold the elements, each as often as it came. -/
  perm : (cs.flatMap Class.members).Perm xs
  /-- Whoever joined a class is the same as its first member. -/
  joined : ∀ c ∈ cs, ∀ x ∈ c.others, same c.first x = true
  /-- No class was opened by an element that an earlier class would have taken. -/
  apart : cs.Pairwise fun c d => same c.first d.first = false

/-- One insertion adds the element to the members of one class. -/
theorem Class.perm_insert (x : α) : ∀ cs : List (Class α),
    ((Class.insert same x cs).flatMap Class.members).Perm (x :: cs.flatMap Class.members)
  | [] => by simp [Class.insert, Class.members]
  | c :: cs => by
    simp only [Class.insert]
    split
    · have hmove : ((c.first :: c.others) ++ [x]).Perm (x :: (c.first :: c.others)) :=
        List.perm_append_comm
      simpa [Class.members] using hmove.append_right (cs.flatMap Class.members)
    · rw [List.flatMap_cons, List.flatMap_cons]
      exact ((perm_insert x cs).append_left c.members).trans List.perm_middle

/-- The first members after an insertion are those from before, and perhaps `x`. -/
theorem Class.first_insert {x : α} : ∀ {cs : List (Class α)} {d : Class α},
    d ∈ Class.insert same x cs → d.first = x ∨ ∃ c ∈ cs, d.first = c.first
  | [], d, hd => by
    rw [Class.insert, List.mem_singleton] at hd
    exact Or.inl (by rw [hd])
  | c :: cs, d, hd => by
    simp only [Class.insert] at hd
    split at hd
    · rcases List.mem_cons.1 hd with rfl | hd
      · exact Or.inr ⟨c, List.mem_cons_self, rfl⟩
      · exact Or.inr ⟨d, List.mem_cons_of_mem c hd, rfl⟩
    · rcases List.mem_cons.1 hd with rfl | hd
      · exact Or.inr ⟨d, List.mem_cons_self, rfl⟩
      · rcases first_insert hd with hx | ⟨e, he, hfirst⟩
        · exact Or.inl hx
        · exact Or.inr ⟨e, List.mem_cons_of_mem c he, hfirst⟩

theorem Class.joined_insert {x : α} : ∀ {cs : List (Class α)},
    (∀ c ∈ cs, ∀ y ∈ c.others, same c.first y = true) →
      ∀ c ∈ Class.insert same x cs, ∀ y ∈ c.others, same c.first y = true
  | [], _, d, hd, y, hy => by
    rw [Class.insert, List.mem_singleton] at hd
    subst hd
    simp at hy
  | c :: cs, hj, d, hd, y, hy => by
    have hrest : ∀ e ∈ cs, ∀ y ∈ e.others, same e.first y = true :=
      fun e he => hj e (List.mem_cons_of_mem c he)
    simp only [Class.insert] at hd
    split at hd
    · next hsame =>
      rcases List.mem_cons.1 hd with rfl | hd
      · rcases List.mem_append.1 hy with hy | hy
        · exact hj c List.mem_cons_self y hy
        · rw [List.mem_singleton] at hy
          rw [hy]; exact hsame
      · exact hrest d hd y hy
    · rcases List.mem_cons.1 hd with rfl | hd
      · exact hj d List.mem_cons_self y hy
      · exact joined_insert hrest d hd y hy

theorem Class.apart_insert {x : α} : ∀ {cs : List (Class α)},
    (cs.Pairwise fun c d => same c.first d.first = false) →
      (Class.insert same x cs).Pairwise fun c d => same c.first d.first = false
  | [], _ => by simp [Class.insert]
  | c :: cs, hp => by
    obtain ⟨hc, hcs⟩ := List.pairwise_cons.1 hp
    simp only [Class.insert]
    split
    · exact List.pairwise_cons.2 ⟨hc, hcs⟩
    · next hne =>
      refine List.pairwise_cons.2 ⟨fun d hd => ?_, apart_insert hcs⟩
      rcases Class.first_insert hd with hx | ⟨e, he, hfirst⟩
      · rw [hx]; simpa using hne
      · rw [hfirst]; exact hc e he

/-- One more element keeps the invariant. -/
theorem Classified.insert {xs : List α} {cs : List (Class α)} (h : Classified same xs cs) (x : α) :
    Classified same (xs ++ [x]) (Class.insert same x cs) where
  perm := (Class.perm_insert x cs).trans
    ((h.perm.cons x).trans (List.perm_append_singleton x xs).symm)
  joined := Class.joined_insert h.joined
  apart := Class.apart_insert h.apart

theorem classify_concat (xs : List α) (x : α) :
    classify same (xs ++ [x]) = Class.insert same x (classify same xs) := by
  rw [classify, List.foldl_append]; rfl

/-- Sorting a list into classes classifies it. -/
theorem classified_classify (same : α → α → Bool) (xs : List α) :
    Classified same xs (classify same xs) := by
  induction xs using List.reverseRecOn with
  | nil => exact ⟨by simp [classify], by simp [classify], by simp [classify]⟩
  | append_singleton xs x ih =>
    rw [classify_concat]
    exact ih.insert x

/-! ### Reading the classes of a list -/

theorem Class.mem_members {c : Class α} {x : α} : x ∈ c.members ↔ x = c.first ∨ x ∈ c.others :=
  List.mem_cons

/-- The members of the classes are the elements that were sorted. -/
theorem mem_of_mem_classify {xs : List α} {c : Class α} (hc : c ∈ classify same xs) {x : α}
    (hx : x ∈ c.members) : x ∈ xs :=
  (classified_classify same xs).perm.mem_iff.1 (List.mem_flatMap.2 ⟨c, hc, hx⟩)

/-- Every element that was sorted is in a class. -/
theorem exists_class_of_mem (same : α → α → Bool) {xs : List α} {x : α} (hx : x ∈ xs) :
    ∃ c ∈ classify same xs, x ∈ c.members :=
  List.mem_flatMap.1 ((classified_classify same xs).perm.mem_iff.2 hx)

/-- A test that is reflexive holds between the first member of a class and all of them. -/
theorem same_first_of_mem {xs : List α} {c : Class α} (refl : ∀ a, same a a = true)
    (hc : c ∈ classify same xs) {x : α} (hx : x ∈ c.members) : same c.first x = true := by
  rcases Class.mem_members.1 hx with rfl | hx
  · exact refl c.first
  · exact (classified_classify same xs).joined c hc x hx

/-! ### The classes one by one -/

/-- A class that is there takes what is the same as its first member, and the rest passes it by. -/
theorem Class.foldl_insert_cons (c : Class α) (cs : List (Class α)) (xs : List α) :
    xs.foldl (fun cs x => Class.insert same x cs) (c :: cs) =
      { c with others := c.others ++ xs.filter (same c.first) } ::
        (xs.filter fun x => !same c.first x).foldl (fun cs x => Class.insert same x cs) cs := by
  induction xs generalizing c cs with
  | nil => simp
  | cons x xs ih =>
    rw [List.foldl_cons, Class.insert]
    split
    · next hsame => simp [ih, hsame]
    · next hsame => simp [ih, hsame]

/-- The first element takes all that are the same into its class; the others form classes of their
    own. -/
theorem classify_cons (same : α → α → Bool) (x : α) (xs : List α) : classify same (x :: xs) =
    ⟨x, xs.filter (same x)⟩ :: classify same (xs.filter fun y => !same x y) :=
  Class.foldl_insert_cons ⟨x, []⟩ [] xs

/-- Induction over a list, one class after the other. -/
theorem class_induction (same : α → α → Bool) {motive : List α → Prop} (nil : motive [])
    (cons : ∀ x xs, motive (xs.filter fun y => !same x y) → motive (x :: xs)) :
    ∀ xs, motive xs
  | [] => nil
  | x :: xs => cons x xs (class_induction same nil cons _)
termination_by xs => xs.length
decreasing_by exact Nat.lt_succ_of_le (List.length_filter_le _ _)

/-- Where the test is an equivalence, what is the same as the first member of a later class is not the
    same as the first element. -/
theorem not_same_of_mem_rest {x : α} {xs : List α} {c : Class α}
    (hc : c ∈ classify same (xs.filter fun y => !same x y))
    (symm : ∀ {a b}, same a b = true → same b a = true)
    (trans : ∀ {a b d}, same a b = true → same b d = true → same a d = true) {y : α}
    (hy : same c.first y = true) : same x y = false := by
  have hfirst : same x c.first = false := by
    simpa using (List.mem_filter.1 (mem_of_mem_classify hc List.mem_cons_self)).2
  exact Bool.eq_false_iff.2 fun hxy => Bool.eq_false_iff.1 hfirst (trans hxy (symm hy))

/-- Where the test is an equivalence, a class is made up of what is the same as its first member, in
    the order of the list. -/
theorem members_eq_filter (refl : ∀ a, same a a = true)
    (symm : ∀ {a b}, same a b = true → same b a = true)
    (trans : ∀ {a b d}, same a b = true → same b d = true → same a d = true) (xs : List α) :
    ∀ c ∈ classify same xs, c.members = xs.filter (same c.first) := by
  induction xs using class_induction same with
  | nil => simp [classify]
  | cons x xs ih =>
    rw [classify_cons]
    refine List.forall_mem_cons.2 ⟨by simp [Class.members, refl], fun c hc => ?_⟩
    have hx : same c.first x = false := Bool.eq_false_iff.2 fun h => by
      simpa [refl] using not_same_of_mem_rest hc symm trans h
    rw [ih c hc, List.filter_filter, List.filter_cons_of_neg (by simp [hx])]
    refine List.filter_congr fun y _ => ?_
    cases hy : same c.first y with
    | false => rfl
    | true => simp [not_same_of_mem_rest hc symm trans hy]

/-- If what passes either of two tests is kept, leaving out the rest does not change which of them is
    passed first. -/
theorem findIdx_lt_of_filter {p q keep : α → Bool} (hp : ∀ y, p y = true → keep y = true)
    (hq : ∀ y, q y = true → keep y = true) {xs : List α}
    (h : (xs.filter keep).findIdx p < (xs.filter keep).findIdx q) :
    xs.findIdx p < xs.findIdx q := by
  induction xs with
  | nil => exact h
  | cons x xs ih =>
    have hpx := hp x
    have hqx := hq x
    grind

/-- Where the test is an equivalence, the classes stand in the order in which something of them comes
    up first. -/
theorem pairwise_findIdx_classify (refl : ∀ a, same a a = true)
    (symm : ∀ {a b}, same a b = true → same b a = true)
    (trans : ∀ {a b d}, same a b = true → same b d = true → same a d = true) (xs : List α) :
    (classify same xs).Pairwise fun c d =>
      xs.findIdx (same c.first) < xs.findIdx (same d.first) := by
  induction xs using class_induction same with
  | nil => exact List.Pairwise.nil
  | cons x xs ih =>
    have hkeep : ∀ c ∈ classify same (xs.filter fun y => !same x y), ∀ y,
        same c.first y = true → (!same x y) = true := fun c hc y hy => by
      rw [not_same_of_mem_rest hc symm trans hy]
      rfl
    have hx : ∀ c ∈ classify same (xs.filter fun y => !same x y), same c.first x = false :=
      fun c hc => Bool.eq_false_iff.2 fun h => by simpa [refl] using hkeep c hc x h
    rw [classify_cons]
    refine List.pairwise_cons.2 ⟨fun d hd => ?_, ih.imp_of_mem fun {c d} hc hd hlt => ?_⟩
    · simp [List.findIdx_cons, refl, hx d hd]
    · rw [List.findIdx_cons, List.findIdx_cons, hx c hc, hx d hd]
      exact Nat.succ_lt_succ (findIdx_lt_of_filter (hkeep c hc) (hkeep d hd) hlt)

/-- Where no element is the same as a later one, each is a class of its own. -/
theorem classify_eq_map {xs : List α} (h : xs.Pairwise fun a b => same a b = false) :
    classify same xs = xs.map fun x => ⟨x, []⟩ := by
  induction xs with
  | nil => rfl
  | cons x xs ih =>
    obtain ⟨hx, hxs⟩ := List.pairwise_cons.1 h
    have hnone : xs.filter (same x) = [] := by simpa using hx
    have hall : xs.filter (fun y => !same x y) = xs :=
      List.filter_eq_self.2 fun y hy => by simp [hx y hy]
    rw [classify_cons, hnone, hall, ih hxs, List.map_cons]

/-- Where the test is an equivalence, a class holds all elements that are the same as its first
    member. -/
theorem mem_members_iff {xs : List α} {c : Class α} (refl : ∀ a, same a a = true)
    (symm : ∀ {a b}, same a b = true → same b a = true)
    (trans : ∀ {a b d}, same a b = true → same b d = true → same a d = true)
    (hc : c ∈ classify same xs) {x : α} : x ∈ c.members ↔ x ∈ xs ∧ same c.first x = true := by
  rw [members_eq_filter refl symm trans xs c hc, List.mem_filter]

/-- Where the test is an equivalence, the first element that is the same as a member of a class is
    its first member. -/
theorem find?_eq_first {xs : List α} {c : Class α} (refl : ∀ a, same a a = true)
    (symm : ∀ {a b}, same a b = true → same b a = true)
    (trans : ∀ {a b d}, same a b = true → same b d = true → same a d = true)
    (hc : c ∈ classify same xs) {x : α} (hx : x ∈ c.members) :
    xs.find? (fun y => same y x) = some c.first := by
  have hfirst := same_first_of_mem refl hc hx
  have hsame : xs.filter (fun y => same y x) = c.members := by
    rw [members_eq_filter refl symm trans xs c hc]
    refine List.filter_congr fun y _ => Bool.eq_iff_iff.2 ⟨fun hy => ?_, fun hy => ?_⟩
    · exact trans hfirst (symm hy)
    · exact trans (symm hy) hfirst
  rw [← List.head?_filter, hsame]
  rfl

/-- The members of a class stand in the order of the list. -/
theorem members_sublist (same : α → α → Bool) (xs : List α) :
    ∀ c ∈ classify same xs, c.members.Sublist xs := by
  induction xs using class_induction same with
  | nil => simp [classify]
  | cons x xs ih =>
    rw [classify_cons]
    refine List.forall_mem_cons.2 ⟨List.filter_sublist.cons_cons x, fun c hc => ?_⟩
    exact (ih c hc).trans (List.filter_sublist.cons x)

/-- So do the first members of the classes. -/
theorem map_first_sublist (same : α → α → Bool) (xs : List α) :
    ((classify same xs).map Class.first).Sublist xs := by
  induction xs using class_induction same with
  | nil => simp [classify]
  | cons x xs ih =>
    rw [classify_cons, List.map_cons]
    exact (ih.trans List.filter_sublist).cons_cons x

/-- Sorted by a key, the classes stand in the order in which their keys come up first. -/
theorem map_key_classify {κ : Type} [BEq κ] [LawfulBEq κ] (key : α → κ) (xs : List α) :
    (classify (fun a b => key a == key b) xs).map (fun c => key c.first)
      = (xs.map key).eraseDups := by
  induction xs using class_induction fun a b => key a == key b with
  | nil => rfl
  | cons x xs ih =>
    rw [classify_cons, List.map_cons, ih, List.map_cons, List.eraseDups_cons, List.filter_map]
    congr 3
    exact List.filter_congr fun y _ => by simp [BEq.comm]

/-- Sorted by a key, a class is made up of all that have its key, in the order of the list. -/
theorem members_eq_filter_key {κ : Type} [BEq κ] [LawfulBEq κ] (key : α → κ) (xs : List α) :
    ∀ c ∈ classify (fun a b => key a == key b) xs,
      c.members = xs.filter fun x => key c.first == key x := by
  apply members_eq_filter
  · exact fun a => beq_self_eq_true (key a)
  · exact fun h => BEq.symm h
  · exact fun h h' => BEq.trans h h'

theorem distinct_eq_self {xs : List α} (h : xs.Pairwise fun a b => same a b = false) :
    distinct same xs = xs := by
  rw [distinct, classify_eq_map h, List.map_map]
  exact List.map_id xs

/-- One more element is kept unless it is the same as one that is kept. -/
theorem distinct_concat (xs : List α) (x : α) : distinct same (xs ++ [x]) =
    if (distinct same xs).any (fun y => same y x) then distinct same xs
    else distinct same xs ++ [x] := by
  rw [distinct, classify_concat, distinct]
  induction classify same xs with
  | nil => rfl
  | cons c cs ih =>
    rw [Class.insert]
    cases hc : same c.first x with
    | true => simp [hc]
    | false =>
      simp only [hc, Bool.false_eq_true, if_false, List.map_cons, List.any_cons, Bool.false_or, ih]
      split
      · rfl
      · rfl

theorem distinct_eq_nil {xs : List α} : distinct same xs = [] ↔ xs = [] := by
  cases xs with
  | nil => simp [distinct, classify]
  | cons x xs => simp [distinct, classify_cons]

theorem map_distinct {β : Type} (f : α → β) (same : β → β → Bool) (xs : List α) :
    (distinct (fun a b => same (f a) (f b)) xs).map f = distinct same (xs.map f) := by
  induction xs using class_induction fun a b => same (f a) (f b) with
  | nil => rfl
  | cons x xs ih =>
    simp only [distinct, classify_cons, List.map_cons, List.filter_map] at ih ⊢
    rw [ih]
    rfl

/-- Keeping the first member of every class is leaving out what is the same as something before. -/
theorem distinct_eq_eraseDupsBy (same : α → α → Bool) (xs : List α) :
    distinct same xs = xs.eraseDupsBy fun x kept => same kept x := by
  induction xs using class_induction same with
  | nil => rfl
  | cons x xs ih =>
    rw [distinct, classify_cons, List.map_cons, ← distinct, ih, List.eraseDupsBy_cons]
    simp

theorem distinct_eq_eraseDups [BEq α] [LawfulBEq α] (xs : List α) :
    distinct (· == ·) xs = xs.eraseDups := by
  rw [distinct_eq_eraseDupsBy, List.eraseDups]
  simp only [BEq.comm]

theorem nodup_eraseDups [BEq α] [LawfulBEq α] (xs : List α) : xs.eraseDups.Nodup := by
  rw [← distinct_eq_eraseDups, distinct, List.Nodup, List.pairwise_map]
  exact (classified_classify (· == ·) xs).apart.imp ne_of_beq_false

end MultipleDispatch
