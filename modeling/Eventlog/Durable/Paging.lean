import Mathlib

/-!
# Durable.Paging

Reading a table page by page, under any strict total order of its keys.

A page is fetched from behind a cursor, cut where its keys leave a scope, and handed out with the
cursor that continues it.  The table may change from one page to the next.

* `takes_all` — the pages of a table that stays as it is are what the scope begins with.
* `Pages.mem` — a row that is there whenever a page is read is in one of them.
* `Pages.sorted` — no key is handed out twice.
* `past_lastKey` — in a numbered list, what lies past a page is what the page left.
-/

namespace Durable.Paging

variable {K V : Type} (lt : K → K → Prop) [DecidableRel lt]

/-- What lies behind a cursor. -/
def behind (rows : List (K × V)) (cursor : K) : List (K × V) :=
  rows.filter fun row => decide (lt cursor row.1)

/-- What the scope begins with, behind a cursor. -/
def stretch (scope : K → Bool) (rows : List (K × V)) (cursor : K) : List (K × V) :=
  (behind lt rows cursor).takeWhile fun row => scope row.1

/-- A page of at most `limit` rows from what was fetched, and the cursor that continues it. -/
def page (scope : K → Bool) (limit : Nat) (fetched : List (K × V)) : List (K × V) × Option K :=
  let rows := fetched.takeWhile fun row => scope row.1
  if rows.length > limit then (rows.take limit, (rows.take limit).getLast?.map Prod.fst)
  else (rows, none)

/-- Following the cursors: the page read at moment `i` from a cursor, and the `n` after it. -/
inductive Pages (read : Nat → K → List (K × V) × Option K) : Nat → K → Nat → List (K × V) → Prop
  | last {i : Nat} {c : K} {rows : List (K × V)} (h : read i c = (rows, none)) :
      Pages read i c 0 rows
  | next {i n : Nat} {c c' : K} {rows more : List (K × V)} (h : read i c = (rows, some c'))
      (rest : Pages read (i + 1) c' n more) : Pages read i c (n + 1) (rows ++ more)

variable {lt} {scope : K → Bool} {limit fetch : Nat} {rows : List (K × V)} {c : K}

theorem takeWhile_take (p : α → Bool) (xs : List α) (n : Nat) :
    (xs.take n).takeWhile p = (xs.takeWhile p).take n := by
  induction xs generalizing n with
  | nil => simp
  | cons x xs ih =>
      cases n with
      | zero => simp
      | succ n => by_cases hx : p x <;> simp [hx, ih]

theorem takeWhile_dropWhile (p : α → Bool) (xs : List α) :
    (xs.dropWhile p).takeWhile p = [] := by
  induction xs with
  | nil => rfl
  | cons x xs ih => by_cases hx : p x <;> simp [hx, ih]

theorem takeWhile_eq_filter {p : α → Bool} {xs : List α} (h : xs.Pairwise fun a b => p b → p a) :
    xs.takeWhile p = xs.filter p := by
  induction xs with
  | nil => rfl
  | cons x xs ih =>
      obtain ⟨hx, hxs⟩ := List.pairwise_cons.mp h
      by_cases hp : p x
      · simp [hp, ih hxs]
      · have hnone : xs.filter p = [] :=
          List.filter_eq_nil_iff.mpr fun b hb hpb => hp (hx b hb hpb)
        simp [hp, hnone]

/-- Following the cursors gives one outcome. -/
theorem Pages.eq {read : Nat → K → List (K × V) × Option K} {i n n' : Nat}
    {out out' : List (K × V)} (h : Pages read i c n out) (h' : Pages read i c n' out') :
    out = out' := by
  induction h generalizing n' out' with
  | last hread =>
      cases h' with
      | last hread' => exact (Prod.mk.inj (hread.symm.trans hread')).1
      | next hread' _ => exact nomatch (Prod.mk.inj (hread.symm.trans hread')).2
  | next hread _ ih =>
      cases h' with
      | last hread' => exact nomatch (Prod.mk.inj (hread.symm.trans hread')).2
      | next hread' hrest' =>
          obtain ⟨rfl, hcursor⟩ := Prod.mk.inj (hread.symm.trans hread')
          cases hcursor
          rw [ih hrest']

/-- What a page fetched behind a cursor is. -/
theorem page_behind (scope : K → Bool) (limit fetch : Nat) (rows : List (K × V)) (c : K) :
    page scope limit ((behind lt rows c).take fetch) =
      if ((stretch lt scope rows c).take fetch).length > limit then
        (((stretch lt scope rows c).take fetch).take limit,
          (((stretch lt scope rows c).take fetch).take limit).getLast?.map Prod.fst)
      else ((stretch lt scope rows c).take fetch, none) := by
  simp only [page, takeWhile_take, stretch]
  rfl

theorem sorted_stretch (h : rows.Pairwise fun a b => lt a.1 b.1) (scope : K → Bool) (c : K) :
    (stretch lt scope rows c).Pairwise fun a b => lt a.1 b.1 :=
  (h.sublist List.filter_sublist).sublist (List.takeWhile_sublist _)

theorem mem_stretch {row : K × V} (h : row ∈ stretch lt scope rows c) :
    row ∈ rows ∧ lt c row.1 ∧ scope row.1 := by
  have hbehind := (List.takeWhile_sublist _).mem h
  obtain ⟨hmem, hlt⟩ := List.mem_filter.mp hbehind
  have hscope := List.mem_takeWhile_imp (p := fun row : K × V => scope row.1) h
  exact ⟨hmem, of_decide_eq_true hlt, hscope⟩

/-- A row is in the stretch when the scope holds from the cursor up to it. -/
theorem mem_stretch_of (hsorted : rows.Pairwise fun a b => lt a.1 b.1) {row : K × V}
    (hrow : row ∈ rows) (hlt : lt c row.1)
    (hscope : ∀ r ∈ rows, lt c r.1 → r = row ∨ lt r.1 row.1 → scope r.1) :
    row ∈ stretch lt scope rows c := by
  have hmem : row ∈ behind lt rows c := List.mem_filter.mpr ⟨hrow, decide_eq_true hlt⟩
  obtain ⟨before, after, hsplit⟩ := List.append_of_mem hmem
  have hordered := hsorted.sublist (List.filter_sublist (p := fun row => decide (lt c row.1)))
  rw [← behind, hsplit] at hordered
  have hheld : ∀ r ∈ before ++ [row], scope r.1 := by
    intro r hr
    have hbehind : r ∈ behind lt rows c := by
      rw [hsplit, List.append_cons]
      exact List.mem_append_left _ hr
    obtain ⟨hin, hcr⟩ := List.mem_filter.mp hbehind
    refine hscope r hin (of_decide_eq_true hcr) ?_
    rcases List.mem_append.mp hr with hbefore | hself
    · exact .inr ((List.pairwise_append.mp hordered).2.2 r hbefore row (by simp))
    · exact .inl (List.mem_singleton.mp hself)
  rw [stretch, hsplit, List.append_cons, List.takeWhile_append_of_pos hheld]
  simp

/-- Up to a row of the stretch the scope holds. -/
theorem scope_of_mem_stretch [Std.Asymm lt] (hsorted : rows.Pairwise fun a b => lt a.1 b.1)
    {row r : K × V} (hrow : row ∈ stretch lt scope rows c) (hr : r ∈ rows) (hlow : lt c r.1)
    (hhigh : lt r.1 row.1) : scope r.1 := by
  have hsplit := List.takeWhile_append_dropWhile (p := fun row : K × V => scope row.1)
    (l := behind lt rows c)
  have hbehind : r ∈ behind lt rows c := List.mem_filter.mpr ⟨hr, decide_eq_true hlow⟩
  have hordered := hsorted.sublist (List.filter_sublist (p := fun row => decide (lt c row.1)))
  rw [← behind, ← hsplit] at hordered
  rw [← hsplit] at hbehind
  rcases List.mem_append.mp hbehind with hin | hout
  · exact (mem_stretch hin).2.2
  · exact absurd hhigh (Std.Asymm.asymm _ _
      ((List.pairwise_append.mp hordered).2.2 row hrow r hout))

omit [DecidableRel lt] in
/-- The last key of a sorted table is above every other. -/
theorem le_getLast (h : rows.Pairwise fun a b => lt a.1 b.1)
    (hlast : rows.getLast?.map Prod.fst = some c) : ∀ row ∈ rows, row.1 = c ∨ lt row.1 c := by
  obtain ⟨last, hrow, rfl⟩ := Option.map_eq_some_iff.mp hlast
  obtain ⟨before, rfl⟩ := List.getLast?_eq_some_iff.mp hrow
  intro row hmem
  rcases List.mem_append.mp hmem with hbefore | hself
  · exact .inr ((List.pairwise_append.mp h).2.2 row hbefore last (by simp))
  · exact .inl (by rw [List.mem_singleton.mp hself])

section Order

variable [IsStrictTotalOrder K lt]

/-- Behind a row of a sorted table lies what follows it there. -/
theorem behind_of_mem {before after : List (K × V)} {row : K × V}
    (h : (before ++ row :: after).Pairwise fun a b => lt a.1 b.1) :
    behind lt (before ++ row :: after) row.1 = after := by
  obtain ⟨-, hrest, hcross⟩ := List.pairwise_append.mp h
  obtain ⟨hrow, -⟩ := List.pairwise_cons.mp hrest
  have hbefore : before.filter (fun r => decide (lt row.1 r.1)) = [] :=
    List.filter_eq_nil_iff.mpr fun r hr hlt =>
      asymm (hcross r hr row (by simp)) (of_decide_eq_true hlt)
  have hafter : after.filter (fun r => decide (lt row.1 r.1)) = after :=
    List.filter_eq_self.mpr fun r hr => decide_eq_true (hrow r hr)
  simp [behind, hbefore, hafter, irrefl row.1]

theorem behind_behind {c c' : K} (h : lt c c') (rows : List (K × V)) :
    behind lt (behind lt rows c) c' = behind lt rows c' := by
  rw [behind, behind, behind, List.filter_filter]
  refine List.filter_congr fun row _ => ?_
  by_cases hrow : lt c' row.1
  · simp [hrow, Trans.trans h hrow]
  · simp [hrow]

/-- The last row of a page is the cursor to what the page left. -/
theorem stretch_next (hsorted : rows.Pairwise fun a b => lt a.1 b.1) (hpos : 0 < limit)
    (hlong : limit < (stretch lt scope rows c).length) :
    ∃ c', ((stretch lt scope rows c).take limit).getLast?.map Prod.fst = some c' ∧ lt c c' ∧
      stretch lt scope rows c' = (stretch lt scope rows c).drop limit := by
  obtain ⟨n, rfl⟩ := Nat.exists_eq_add_one.mpr hpos
  have hn : n < (stretch lt scope rows c).length := by omega
  have hsplit := List.takeWhile_append_dropWhile (p := fun row : K × V => scope row.1)
    (l := behind lt rows c)
  rw [← stretch] at hsplit
  have hdrop : (stretch lt scope rows c).drop n =
      (stretch lt scope rows c)[n] :: (stretch lt scope rows c).drop (n + 1) :=
    List.drop_eq_getElem_cons hn
  have hmem : (stretch lt scope rows c)[n] ∈ stretch lt scope rows c := List.getElem_mem hn
  refine ⟨(stretch lt scope rows c)[n].1, ?_, (mem_stretch hmem).2.1, ?_⟩
  · rw [List.getLast?_eq_getElem?, List.length_take, Nat.min_eq_left (by omega),
      List.getElem?_take, if_pos (by omega), Nat.add_sub_cancel, List.getElem?_eq_getElem hn]
    rfl
  · have hbehind : behind lt rows (stretch lt scope rows c)[n].1 =
        (stretch lt scope rows c).drop (n + 1) ++
          (behind lt rows c).dropWhile fun row => scope row.1 := by
      rw [← behind_behind (mem_stretch hmem).2.1]
      have hwhole : behind lt rows c = (stretch lt scope rows c).take n ++
          (stretch lt scope rows c)[n] :: ((stretch lt scope rows c).drop (n + 1) ++
            (behind lt rows c).dropWhile fun row => scope row.1) := by
        rw [← List.cons_append, ← hdrop, ← List.append_assoc, List.take_append_drop, hsplit]
      have hordered := hsorted.sublist (List.filter_sublist (p := fun row => decide (lt c row.1)))
      rw [← behind, hwhole] at hordered
      nth_rewrite 1 [hwhole]
      exact behind_of_mem hordered
    rw [stretch, hbehind, List.takeWhile_append_of_pos, takeWhile_dropWhile, List.append_nil]
    intro row hrow
    exact (mem_stretch (List.mem_of_mem_drop hrow)).2.2

/-- What reading a page at a moment gives: short enough to be the last, or full with the cursor
    to the rest. -/
theorem page_cases (scope : K → Bool) (c : K) (hsorted : rows.Pairwise fun a b => lt a.1 b.1) (hpos : 0 < limit)
    (hfetch : limit < fetch) :
    (stretch lt scope rows c).length ≤ limit ∧
        page scope limit ((behind lt rows c).take fetch) = (stretch lt scope rows c, none) ∨
      ∃ c', limit < (stretch lt scope rows c).length ∧ lt c c' ∧
        page scope limit ((behind lt rows c).take fetch) =
          ((stretch lt scope rows c).take limit, some c') ∧
        (∀ row ∈ (stretch lt scope rows c).take limit, row.1 = c' ∨ lt row.1 c') ∧
        stretch lt scope rows c' = (stretch lt scope rows c).drop limit := by
  rw [page_behind]
  by_cases hlong : limit < (stretch lt scope rows c).length
  · obtain ⟨c', hlast, hlt, hrest⟩ := stretch_next hsorted hpos hlong
    have htake : ((stretch lt scope rows c).take fetch).take limit =
        (stretch lt scope rows c).take limit := by
      rw [List.take_take, Nat.min_eq_left (by omega)]
    have hbelow := le_getLast ((sorted_stretch hsorted scope c).sublist
      (List.take_sublist limit _)) hlast
    refine .inr ⟨c', hlong, hlt, ?_, hbelow, hrest⟩
    rw [if_pos (by rw [List.length_take]; omega), htake, hlast]
  · have htake : (stretch lt scope rows c).take fetch = stretch lt scope rows c :=
      List.take_of_length_le (by omega)
    exact .inl ⟨by omega, by rw [htake, if_neg (by omega)]⟩

/-- **The pages of a table that stays as it is**: all that the scope begins with. -/
theorem takes_all (scope : K → Bool) (hsorted : rows.Pairwise fun a b => lt a.1 b.1) (hpos : 0 < limit)
    (hfetch : limit < fetch) (i : Nat) (c : K) :
    ∃ n, Pages (fun _ c => page scope limit ((behind lt rows c).take fetch)) i c n
      (stretch lt scope rows c) := by
  induction hlen : (stretch lt scope rows c).length using Nat.strong_induction_on
    generalizing i c with
  | _ length ih =>
      rcases page_cases scope c hsorted hpos hfetch with ⟨-, hpage⟩ |
        ⟨c', hlong, -, hpage, -, hrest⟩
      · exact ⟨0, .last hpage⟩
      · have hshorter : (stretch lt scope rows c').length < length := by
          rw [hrest, List.length_drop]
          omega
        obtain ⟨n, hpages⟩ := ih _ hshorter (i + 1) c' rfl
        rw [hrest] at hpages
        have hnext := Pages.next hpage hpages
        rw [List.take_append_drop] at hnext
        exact ⟨n + 1, hnext⟩

section Changing

variable {rowsAt : Nat → List (K × V)}
  (hsorted : ∀ i, (rowsAt i).Pairwise fun a b => lt a.1 b.1) (hpos : 0 < limit)
  (hfetch : limit < fetch)

include hsorted hpos hfetch

/-- **A row that is there whenever a page is read** is handed out, if the scope reaches it. -/
theorem Pages.mem {i n : Nat} {out : List (K × V)}
    (h : Pages (fun i c => page scope limit ((behind lt (rowsAt i) c).take fetch)) i c n out)
    {row : K × V} (hrow : ∀ j, i ≤ j → j ≤ i + n → row ∈ rowsAt j) (hlt : lt c row.1)
    (hscope : ∀ j, ∀ r ∈ rowsAt j, lt c r.1 → r = row ∨ lt r.1 row.1 → scope r.1) :
    row ∈ out := by
  induction h with
  | @last i c out hread =>
      have hin := mem_stretch_of (hsorted i) (hrow i (by omega) (by omega)) hlt (hscope i)
      rcases page_cases scope c (hsorted i) hpos hfetch with ⟨-, hpage⟩ |
        ⟨c', -, -, hpage, -, -⟩
      · obtain ⟨rfl, -⟩ := Prod.mk.inj (hpage.symm.trans hread)
        exact hin
      · exact nomatch (Prod.mk.inj (hpage.symm.trans hread)).2
  | @next i n c c' taken more hread _ ih =>
      have hin := mem_stretch_of (hsorted i) (hrow i (by omega) (by omega)) hlt (hscope i)
      rcases page_cases scope c (hsorted i) hpos hfetch with ⟨-, hpage⟩ |
        ⟨c'', -, hnext, hpage, -, hrest⟩
      · exact nomatch (Prod.mk.inj (hpage.symm.trans hread)).2
      · obtain ⟨rfl, hcursor⟩ := Prod.mk.inj (hpage.symm.trans hread)
        cases hcursor
        rw [← List.take_append_drop limit (stretch lt scope (rowsAt i) c)] at hin
        rcases List.mem_append.mp hin with htaken | hleft
        · exact List.mem_append_left _ htaken
        · rw [← hrest] at hleft
          have hbehind : lt c' row.1 := (mem_stretch hleft).2.1
          refine List.mem_append_right _ (ih (fun j h₁ h₂ => hrow j (by omega) (by omega))
            hbehind fun j r hr hcr => ?_)
          exact hscope j r hr (Trans.trans hnext hcr)

/-- **No key is handed out twice**: the keys go up, from behind the cursor on. -/
theorem Pages.sorted {i n : Nat} {out : List (K × V)}
    (h : Pages (fun i c => page scope limit ((behind lt (rowsAt i) c).take fetch)) i c n out) :
    (∀ row ∈ out, lt c row.1) ∧ out.Pairwise fun a b => lt a.1 b.1 := by
  induction h with
  | @last i c out hread =>
      rcases page_cases scope c (hsorted i) hpos hfetch with ⟨-, hpage⟩ |
        ⟨c', -, -, hpage, -, -⟩
      · obtain ⟨rfl, -⟩ := Prod.mk.inj (hpage.symm.trans hread)
        exact ⟨fun row hrow => (mem_stretch hrow).2.1, sorted_stretch (hsorted i) scope c⟩
      · exact nomatch (Prod.mk.inj (hpage.symm.trans hread)).2
  | @next i n c c' taken more hread _ ih =>
      rcases page_cases scope c (hsorted i) hpos hfetch with ⟨-, hpage⟩ |
        ⟨c'', -, hnext, hpage, hbelow, -⟩
      · exact nomatch (Prod.mk.inj (hpage.symm.trans hread)).2
      · obtain ⟨rfl, hcursor⟩ := Prod.mk.inj (hpage.symm.trans hread)
        cases hcursor
        obtain ⟨hbehind, hmore⟩ := ih
        have htaken : ∀ row ∈ (stretch lt scope (rowsAt i) c).take limit, lt c row.1 :=
          fun row hrow => (mem_stretch (List.mem_of_mem_take hrow)).2.1
        refine ⟨fun row hrow => ?_, List.pairwise_append.mpr
          ⟨(sorted_stretch (hsorted i) scope c).sublist (List.take_sublist limit _), hmore,
            fun a ha b hb => ?_⟩⟩
        · rcases List.mem_append.mp hrow with h | h
          · exact htaken row h
          · exact Trans.trans hnext (hbehind row h)
        · rcases hbelow a ha with heq | hlt
          · exact heq ▸ hbehind b hb
          · exact Trans.trans hlt (hbehind b hb)

end Changing

end Order

/-! ## Numbered lists

Where the keys are numbers, a page ends at the number of its last row, or stays where it is. -/

section Numbered

variable {α : Type} (key : α → Nat)

/-- What lies past a number. -/
def past (xs : List α) (n : Nat) : List α := xs.filter fun x => decide (n < key x)

/-- The number a page that starts at `n` ends at. -/
def lastKey (page : List α) (n : Nat) : Nat := (page.getLast?.map key).getD n

variable {key} {xs ys : List α} {n : Nat}

@[simp] theorem lastKey_nil : lastKey key [] n = n := rfl

@[simp] theorem lastKey_concat (x : α) : lastKey key (xs ++ [x]) n = key x := by
  simp [lastKey]

theorem past_sublist (xs : List α) (n : Nat) : (past key xs n).Sublist xs := List.filter_sublist

theorem lt_of_mem_past {x : α} (h : x ∈ past key xs n) : n < key x :=
  of_decide_eq_true (List.mem_filter.mp h).2

/-- **What lies past a page** is what the page left. -/
theorem past_lastKey (hsorted : xs.Pairwise fun a b => key a < key b) {page rest : List α}
    (h : past key xs n = page ++ rest) : past key xs (lastKey key page n) = rest := by
  rcases List.eq_nil_or_concat' page with rfl | ⟨page, x, rfl⟩
  · simpa using h
  · rw [lastKey_concat]
    have hmem : x ∈ past key xs n := by
      rw [h]
      simp
    have hx : n < key x := lt_of_mem_past hmem
    have hinner : past key xs (key x) = past key (past key xs n) (key x) := by
      rw [past, past, past, List.filter_filter]
      refine List.filter_congr fun y _ => ?_
      by_cases hy : key x < key y
      · simp [hy, hx.trans hy]
      · simp [hy]
    have hsublist : (past key xs n).Sublist xs := past_sublist xs n
    have hordered := hsorted.sublist hsublist
    rw [h, List.append_assoc, List.singleton_append] at hordered
    obtain ⟨-, hlater, hcross⟩ := List.pairwise_append.mp hordered
    rw [hinner, h, past, List.filter_append, List.filter_append, List.filter_eq_nil_iff.mpr,
      List.filter_singleton, List.filter_eq_self.mpr]
    · simp
    · exact fun y hy => decide_eq_true ((List.pairwise_cons.mp hlater).1 y hy)
    · intro y hy
      have hlow := hcross y hy x (by simp)
      simp only [decide_eq_true_eq]
      omega

variable (key xs) in
/-- A page of at most `limit` rows past a number, where it ends and whether more follow. -/
def pageFrom (limit n : Nat) : List α × Nat × Bool :=
  let page := (past key xs n).take limit
  (page, lastKey key page n, decide (limit < (past key xs n).length))

/-- Reading on from where a page ends, until no more follow. -/
inductive ReadOn (read : Nat → List α × Nat × Bool) : Nat → List α → Prop
  | last {n next : Nat} {page : List α} (h : read n = (page, next, false)) : ReadOn read n page
  | more {n next : Nat} {page rest : List α} (h : read n = (page, next, true))
      (on : ReadOn read next rest) : ReadOn read n (page ++ rest)

theorem past_next (hsorted : xs.Pairwise fun a b => key a < key b) (limit n : Nat) :
    past key xs (lastKey key ((past key xs n).take limit) n) = (past key xs n).drop limit :=
  past_lastKey hsorted (List.take_append_drop limit _).symm

theorem readOn_past (hsorted : xs.Pairwise fun a b => key a < key b) {limit : Nat}
    (hpos : 0 < limit) (n : Nat) : ReadOn (pageFrom key xs limit) n (past key xs n) := by
  induction hlength : (past key xs n).length using Nat.strong_induction_on generalizing n with
  | _ length ih =>
      by_cases hmore : limit < (past key xs n).length
      · have hrest := past_next hsorted limit n
        have hshorter := congrArg List.length hrest
        rw [List.length_drop] at hshorter
        have hon := ih _ (by omega) _ hshorter
        rw [hrest] at hon
        rw [← List.take_append_drop limit (past key xs n)]
        exact .more (by simp [pageFrom, hmore]) hon
      · have hall := List.take_of_length_le (Nat.not_lt.mp hmore)
        exact .last (show _ = (_, lastKey key (past key xs n) n, _) by simp [pageFrom, hall, hmore])

/-- **Reading on** gives what lies past the start, once and in order, and nothing else. -/
theorem readOn_iff (hsorted : xs.Pairwise fun a b => key a < key b) {limit : Nat}
    (hpos : 0 < limit) {n : Nat} {out : List α} :
    ReadOn (pageFrom key xs limit) n out ↔ out = past key xs n := by
  constructor
  · intro h
    induction h with
    | last h =>
        obtain ⟨rfl, -, hlast⟩ := by simpa [pageFrom] using h
        exact List.take_of_length_le hlast
    | more h on ih =>
        obtain ⟨rfl, rfl, -⟩ := by simpa [pageFrom] using h
        rw [ih, past_next hsorted, List.take_append_drop]
  · rintro rfl
    exact readOn_past hsorted hpos n

end Numbered

/-! ## Prefixes as scopes

In the lexicographic order the extensions of a list lie together, right above it. -/

section Prefixes

variable {α : Type} [LinearOrder α] {p k k' : List α}

theorem lt_extension (h : p <+: k) (hne : k ≠ p) : p < k := by
  obtain ⟨rest, rfl⟩ := h
  have hrest : rest ≠ [] := fun hnil => hne (by rw [hnil, List.append_nil])
  obtain ⟨x, xs, rfl⟩ := List.exists_cons_of_ne_nil hrest
  induction p with
  | nil => exact List.nil_lt_cons x xs
  | cons y p ih =>
      exact List.cons_lt_cons_iff.mpr (.inr ⟨rfl, ih (by simp)⟩)

theorem prefix_of_between (h : p <+: k') (hlow : p < k) (hhigh : k < k') : p <+: k := by
  induction p generalizing k k' with
  | nil => exact List.nil_prefix
  | cons x p ih =>
      obtain ⟨rest, rfl⟩ := h
      cases k with
      | nil => exact absurd hlow (List.not_lt_nil _)
      | cons y k =>
          rw [List.cons_append] at hhigh
          rcases List.cons_lt_cons_iff.mp hlow with hxy | ⟨rfl, hpk⟩
          · rcases List.cons_lt_cons_iff.mp hhigh with hyx | ⟨rfl, -⟩
            · exact absurd hxy hyx.asymm
            · exact absurd hxy (lt_irrefl _)
          · rcases List.cons_lt_cons_iff.mp hhigh with hxx | ⟨-, hrest⟩
            · exact absurd hxx (lt_irrefl _)
            · exact List.cons_prefix_cons.mpr ⟨rfl, ih (List.prefix_append p rest) hpk hrest⟩

end Prefixes

end Durable.Paging
