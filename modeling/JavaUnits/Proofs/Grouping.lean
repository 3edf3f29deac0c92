import Mathlib.Data.List.Infix
import JavaUnits.Proofs.Heads
import JavaUnits.Proofs.Sites

/-!
Grouping is a local partition. The items are what their own tokens make them: where the braces of
the tokens match, an item ends at its first semicolon in no braces, or at the first brace that
leaves none open behind a type keyword in no braces. What follows items that are over is grouped as
if nothing stood before it.
-/

namespace JavaUnits

open Token

/-! ## Braces -/

namespace Token

/-- How many more braces the tokens open than they close. -/
def depth (ts : List Token) : Int :=
  ts.countP opensBrace - ts.countP closesBrace

/-- Whether the tokens nowhere close a brace that they did not open. -/
def Balanced (ts : List Token) : Prop :=
  ∀ front, front <+: ts → 0 ≤ depth front

instance (ts : List Token) : Decidable (Balanced ts) :=
  decidable_of_iff (∀ front ∈ ts.inits, 0 ≤ depth front) (by simp [Balanced])

variable {t : Token} {ts xs ys : List Token}

theorem depth_append (xs ys : List Token) : depth (xs ++ ys) = depth xs + depth ys := by
  simp only [depth, List.countP_append]
  omega

theorem depth_opensBrace (opens : t.opensBrace = true) : depth [t] = 1 := by
  have other : t.closesBrace = false := eq_of_isSeparator opens (by decide)
  simp [depth, opens, other]

theorem depth_closesBrace (closes : t.closesBrace = true) : depth [t] = -1 := by
  have other : t.opensBrace = false := eq_of_isSeparator closes (by decide)
  simp [depth, closes, other]

theorem depth_other (opens : t.opensBrace = false) (closes : t.closesBrace = false) :
    depth [t] = 0 := by
  simp [depth, opens, closes]

theorem Balanced.front (balanced : Balanced (xs ++ ys)) : Balanced xs :=
  fun _ begins => balanced _ (begins.trans (List.prefix_append xs ys))

theorem Balanced.back (balanced : Balanced (xs ++ ys)) (even : depth xs = 0) : Balanced ys := by
  intro front begins
  have whole := balanced (xs ++ front) ((List.prefix_append_right_inj xs).2 begins)
  rw [depth_append, even] at whole
  omega

/-- Where the braces match, the count that never falls below zero is the true one. -/
theorem bracesAfter_eq_depth (balanced : Balanced ts) : (bracesAfter 0 ts : Int) = depth ts := by
  induction ts using List.reverseRecOn with
  | nil => rfl
  | append_singleton ts t ih =>
    have before := ih balanced.front
    have after := balanced _ (List.prefix_refl _)
    rw [depth_append] at after ⊢
    rw [bracesAfter_concat]
    split
    · rename_i opens
      rw [depth_opensBrace opens]
      omega
    rename_i opens
    split
    · rename_i closes
      rw [depth_closesBrace closes] at after ⊢
      omega
    · rename_i closes
      rw [depth_other (Bool.eq_false_iff.2 opens) (Bool.eq_false_iff.2 closes)]
      omega

theorem mem_sites (front : List Token) (t : Token) (back : List Token) :
    ⟨front, t, back⟩ ∈ sites (front ++ t :: back) := by
  have parts := sitesFrom_append [] [] front (t :: back)
  rw [List.nil_append, List.nil_append] at parts
  rw [sites, parts, sitesFrom]
  simp

end Token

/-! ## The ends of items -/

namespace Item

/-- Whether a type keyword stands in no braces among the tokens, which follow the `earlier` ones. -/
def OpensType (earlier ts : List Token) : Prop :=
  ∃ front t back, ts = front ++ t :: back ∧ depth front = 0 ∧
    t.opensType (earlier ++ front).getLast? = true

/-- Whether the last of the tokens ends an item that they make up: it is a semicolon in no braces,
or it closes the last open brace behind a type keyword in no braces. -/
def Ends (earlier : List Token) (item : Item) : Prop :=
  ∃ front t, item = front ++ [t] ∧
    (t.isSemicolon = true ∧ depth front = 0 ∨
      t.closesBrace = true ∧ depth item = 0 ∧ OpensType earlier front)

variable {t : Token} {ts xs ys earlier : List Token} {item : Item} {items : List Item}

theorem holdsKeyword_iff (balanced : Balanced item) :
    item.holdsKeyword = true ↔ OpensType [] item := by
  have even {front back : List Token} (whole : item = front ++ back) :
      bracesAfter 0 front = 0 ↔ depth front = 0 := by
    have := bracesAfter_eq_depth (whole ▸ balanced).front
    omega
  rw [holdsKeyword, List.any_eq_true]
  constructor
  · rintro ⟨x, mem, isKeyword⟩
    have whole := eq_of_mem_sites mem
    rw [Bool.and_eq_true, Site.isTop, beq_iff_eq, even whole] at isKeyword
    exact ⟨x.front, x.token, x.back, whole, isKeyword.1, isKeyword.2⟩
  · rintro ⟨front, t, back, whole, outside, opens⟩
    refine ⟨⟨front, t, back⟩, whole ▸ mem_sites front t back, ?_⟩
    rw [Bool.and_eq_true, Site.isTop, beq_iff_eq, even whole]
    exact ⟨outside, opens⟩

theorem isOver_iff (balanced : Balanced item) : item.isOver = true ↔ Ends [] item := by
  rcases List.eq_nil_or_concat' item with rfl | ⟨front, t, rfl⟩
  · simp [isOver, Ends]
  have count := bracesAfter_eq_depth balanced
  have even : bracesAfter 0 (front ++ [t]) = 0 ↔ depth (front ++ [t]) = 0 := by omega
  have keyword := holdsKeyword_iff balanced.front
  have last {front' : List Token} {t' : Token} (same : front ++ [t] = front' ++ [t']) :
      front = front' ∧ t = t' := by simpa using List.append_inj' same rfl
  rw [isOver, List.getLast?_concat, Option.any_some, Bool.and_eq_true, beq_iff_eq, Bool.or_eq_true,
    Bool.and_eq_true, even, holdsKeyword_concat]
  constructor
  · rintro ⟨outside, mark | ⟨closes, holds⟩⟩
    · refine ⟨front, t, rfl, .inl ⟨mark, ?_⟩⟩
      have none : depth [t] = 0 :=
        depth_other (eq_of_isSeparator mark (by decide)) (eq_of_isSeparator mark (by decide))
      rw [depth_append, none] at outside
      omega
    · rw [opensType_eq_false_of_isSeparator closes, Bool.and_false, Bool.or_false, keyword] at holds
      exact ⟨front, t, rfl, .inr ⟨closes, outside, holds⟩⟩
  · rintro ⟨front', t', same, mark⟩
    obtain ⟨rfl, rfl⟩ := last same
    rcases mark with ⟨mark, outside⟩ | ⟨closes, outside, holds⟩
    · have none : depth [t] = 0 :=
        depth_other (eq_of_isSeparator mark (by decide)) (eq_of_isSeparator mark (by decide))
      rw [depth_append, none]
      exact ⟨by omega, .inl mark⟩
    · exact ⟨outside, .inr ⟨closes, by rw [keyword.2 holds, Bool.true_or]⟩⟩

/-- Only a dot before the item could make a difference to it. -/
theorem ends_iff (noDot : isDot earlier.getLast? = false) : Ends earlier item ↔ Ends [] item := by
  have same (front : List Token) (t : Token) :
      t.opensType (earlier ++ front).getLast? = t.opensType front.getLast? := by
    rw [opensType_eq, opensType_eq front.getLast?, List.getLast?_append]
    cases front.getLast? with
    | none => rw [Option.none_or, noDot]; rfl
    | some t => rfl
  simp only [Ends, OpensType, same, List.nil_append]

theorem depth_of_isOver (balanced : Balanced item) (finished : item.isOver = true) :
    depth item = 0 := by
  rw [isOver, Bool.and_eq_true, beq_iff_eq] at finished
  rw [← bracesAfter_eq_depth balanced, finished.1]
  rfl

theorem isDot_getLast?_of_isOver (finished : item.isOver = true) : isDot item.getLast? = false := by
  rcases List.eq_nil_or_concat' item with rfl | ⟨front, t, rfl⟩
  · rfl
  · rw [List.getLast?_concat]
    exact isDot_of_isOver finished

theorem settled_flatten (finished : ∀ item ∈ items, isOver item = true)
    (balanced : Balanced (items.flatten ++ ts)) :
    Balanced ts ∧ isDot items.flatten.getLast? = false := by
  induction items with
  | nil => exact ⟨balanced, rfl⟩
  | cons item items ih =>
    rw [List.forall_mem_cons] at finished
    rw [List.flatten_cons, List.append_assoc] at balanced
    have none := depth_of_isOver balanced.front finished.1
    obtain ⟨rest, noDot⟩ := ih finished.2 (balanced.back none)
    refine ⟨rest, ?_⟩
    rw [List.flatten_cons, List.getLast?_append]
    cases last : items.flatten.getLast? with
    | none => exact isDot_getLast?_of_isOver finished.1
    | some t => rwa [last] at noDot

theorem isOver_groupFrom {f : Item} (going : ∀ early, early <+: f → isOver early = false)
    {front back : List Item} (grouped : groupFrom f.progress ts = front ++ item :: back) :
    (back ≠ [] → item.isOver = true) ∧
      ∀ early, early <+: item → early ≠ item → isOver early = false := by
  induction ts generalizing f front with
  | nil =>
    have single : groupFrom f.progress [] = if f.reverse.isEmpty then [] else [f] := by
      simp [groupFrom, progress]
    rw [single] at grouped
    split at grouped
    · simp at grouped
    · obtain ⟨rfl, rfl, rfl⟩ : front = [] ∧ f = item ∧ back = [] := by
        cases front <;> simp_all
      exact ⟨fun more => absurd rfl more, fun early begins _ => going early begins⟩
  | cons t ts ih =>
    rw [groupFrom_progress] at grouped
    split at grouped
    · rename_i finished
      cases front with
      | nil =>
        obtain ⟨rfl, -⟩ := List.cons.inj grouped
        refine ⟨fun _ => finished, fun early begins other => ?_⟩
        rcases List.prefix_concat_iff.1 begins with whole | begins
        · exact absurd whole other
        · exact going early begins
      | cons first front =>
        refine ih (f := []) (fun early begins => ?_) (List.cons.inj grouped).2
        rw [List.prefix_nil.1 begins]
        rfl
    · rename_i goesOn
      refine ih (fun early begins => ?_) grouped
      rcases List.prefix_concat_iff.1 begins with rfl | begins
      · exact Bool.eq_false_iff.2 goesOn
      · exact going early begins

theorem isOver_group {front back : List Item} (grouped : group ts = front ++ item :: back) :
    (back ≠ [] → item.isOver = true) ∧
      ∀ early, early <+: item → early ≠ item → isOver early = false := by
  refine isOver_groupFrom (f := []) (fun early begins => ?_) grouped
  rw [List.prefix_nil.1 begins]
  rfl

/-- In tokens whose braces match, the braces of each item match; every item but the last one ends
with a token that ends it, and none ends with an earlier one. -/
theorem ends_of_group (balanced : Balanced ts) {front back : List Item}
    (grouped : group ts = front ++ item :: back) :
    Balanced item ∧ (back ≠ [] → Ends front.flatten item) ∧
      ∀ early, early <+: item → early ≠ item → ¬ Ends front.flatten early := by
  have before (x : Item) (mem : x ∈ front) : x.isOver = true := by
    obtain ⟨xs, ys, rfl⟩ := List.append_of_mem mem
    rw [List.append_assoc, List.cons_append] at grouped
    exact (isOver_group grouped).1 (by simp)
  have whole : ts = front.flatten ++ (item ++ back.flatten) := by
    rw [← flatten_group ts, grouped]
    simp
  obtain ⟨rest, noDot⟩ := settled_flatten before (whole ▸ balanced)
  obtain ⟨finished, goesOn⟩ := isOver_group grouped
  refine ⟨rest.front, fun more => ?_, fun early begins other => ?_⟩
  · rw [ends_iff noDot, ← isOver_iff rest.front]
    exact finished more
  · obtain ⟨later, rfl⟩ := begins
    rw [ends_iff noDot, ← isOver_iff rest.front.front, goesOn early ⟨later, rfl⟩ other]
    exact Bool.false_ne_true

/-- What follows tokens of which nothing is left over is grouped by itself. -/
theorem group_append_of_closed (closed : ∀ item ∈ (group xs).getLast?, item.IsClosed)
    (ys : List Token) : group (xs ++ ys) = group xs ++ group ys := by
  obtain ⟨items, rest, rfl, all, grouped⟩ := group_spec xs
  rw [grouped] at closed ⊢
  cases rest with
  | nil => simpa using group_flatten all ys
  | cons t rest =>
    have last : IsClosed (t :: rest) := closed _ (by simp)
    have every : ∀ item ∈ items ++ [t :: rest], item.IsClosed := by
      rw [List.forall_mem_append, List.forall_mem_singleton]
      exact ⟨all, last⟩
    simpa using group_flatten every ys

/-- Grouping loses and repeats nothing, cuts just behind the tokens that end an item, and does not
look back behind an item. -/
theorem group_partition (ts : List Token) :
    (∀ item ∈ group ts, item ≠ []) ∧ (group ts).flatten = ts ∧
      (Balanced ts → ∀ front item back, group ts = front ++ item :: back →
        Balanced item ∧ (back ≠ [] → Ends front.flatten item) ∧
          ∀ early, early <+: item → early ≠ item → ¬ Ends front.flatten early) ∧
      ∀ xs ys, (∀ item ∈ (group xs).getLast?, item.IsClosed) →
        group (xs ++ ys) = group xs ++ group ys :=
  ⟨fun _ => ne_nil_of_mem_group, flatten_group ts,
    fun balanced _ _ _ => ends_of_group balanced,
    fun _ ys closed => group_append_of_closed closed ys⟩

/-- Braces before a type keyword and within a type, and no item left over. -/
def gathered : Text :=
  "@Named(\x7b\"x\", int.class\x7d) class A \x7b int[] a = \x7b1\x7d; class B \x7b\x7d \x7d\n"
    ++ "import p.Q;\nenum E \x7b A, B; \x7d\n"

theorem group_partition_gathered : ∃ ts, tokenize gathered = .ok ts ∧ Balanced ts ∧
    group (ts ++ ts) = group ts ++ group ts ∧
    ∃ item back, group ts = item :: back ∧ back.length = 2 ∧ Balanced item ∧ Ends [] item ∧
      ∀ early, early <+: item → early ≠ item → ¬ Ends [] early := by
  obtain ⟨ts, read, balanced, closed, three⟩ : ∃ ts ∈ (tokenize gathered).toOption,
      Balanced ts ∧ (∀ item ∈ (group ts).getLast?, IsClosed item) ∧ (group ts).length = 3 := by
    rw [gathered, Text.ofString_ofList, Text.ofString_ofList]
    decide +kernel
  obtain ⟨-, -, ends, appended⟩ := group_partition ts
  obtain ⟨item, back, grouped⟩ := List.exists_cons_of_length_eq_add_one three
  have two : back.length = 2 := by simpa [grouped] using three
  obtain ⟨matching, last, first⟩ := ends balanced [] item back grouped
  refine ⟨ts, toOption_eq_some.1 read, balanced, appended ts ts closed, item, back, grouped, two,
    matching, last ?_, first⟩
  rintro rfl
  cases two

end Item

end JavaUnits
