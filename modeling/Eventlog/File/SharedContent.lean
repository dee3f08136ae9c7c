import Eventlog.File.Journal

/-!
# Eventlog.File.SharedContent

`Content` with the buffers its views share.

The views of one handle point into append-only buffers, and a view that can go on in place does.
An adoption takes its locks three times, so the operations of other views run in between: it is
three steps here.  `Content`, elsewhere in this development, owns its bytes, and the two agree:
whatever the other views do, a view holds the bytes it was made with and the tails it absorbed
itself (`System.run_refines`, `shared_content`).
-/

namespace Eventlog.File.Shared

/-! ## Buffers and views -/

/-- The `Retained` buffers, by address. -/
abbrev Heap : Type := List Bytes

def Heap.bytes (h : Heap) (address : Nat) : Bytes := h[address]?.getD []

/-- `Content`: the first `length` bytes of a buffer. -/
structure View where
  retained : Nat
  length : Nat
  stamp : Option Stamp
  sealed : List (Option Stamp)
  deriving DecidableEq

/-- What a view holds. -/
def View.content (h : Heap) (v : View) : Content where
  bytes := (h.bytes v.retained).take v.length
  stamp := v.stamp
  sealed := v.sealed

/-- `Content::absorb`. -/
def absorb (h : Heap) (v : View) (bytes : Bytes) : Heap × View :=
  let retained := h.bytes v.retained
  let ahead := min (retained.length - v.length) bytes.length
  if (retained.drop v.length).take ahead = bytes.take ahead then
    (h.set v.retained (retained ++ bytes.drop ahead),
      { v with length := v.length + bytes.length, stamp := none })
  else
    (h ++ [retained.take v.length ++ bytes],
      { v with retained := h.length, length := v.length + bytes.length, stamp := none })

/-- How many bytes `adopt` compares. -/
def common (v other : View) : Nat := min v.length other.length

theorem common_le_left (v other : View) : common v other ≤ v.length := Nat.min_le_left _ _

theorem common_le_right (v other : View) : common v other ≤ other.length := Nat.min_le_right _ _

/-- Where an `adopt` is between two of its locks.  It borrows the other view, so a copy of that
    one stands for it. -/
inductive Phase where
  | idle
  /-- The common bytes were found equal. -/
  | compared (other : View)
  /-- The bytes past them are copied out. -/
  | copied (other : View) (rest : Bytes)
  deriving DecidableEq

/-- `Content::adopt` up to the comparison. -/
def compare (h : Heap) (v other : View) : Phase :=
  if v.retained = other.retained then .idle
  else if common v other = 0 then .idle
  else if (h.bytes v.retained).take (common v other) =
      (h.bytes other.retained).take (common v other) then .compared other
  else .idle

/-- The copy of the bytes past the common ones. -/
def copyRest (h : Heap) (v other : View) : Bytes :=
  ((h.bytes v.retained).drop (common v other)).take (v.length - common v other)

/-- The end of `Content::adopt`: the other's buffer goes on with the rest, or the view stays.  The
    answer, here and where `adopt` returns early, is whether the two now have one buffer. -/
def adopted (h : Heap) (v other : View) (rest : Bytes) : Heap × View :=
  let (h', moved) := absorb h ⟨other.retained, common v other, none, []⟩ rest
  (h', if moved.retained = other.retained then { moved with stamp := v.stamp, sealed := v.sealed }
    else v)

/-! ## Any number of views -/

/-- A view, and the adoption that is running on it. -/
structure Live where
  view : View
  phase : Phase
  deriving DecidableEq

structure System where
  heap : Heap
  views : List Live
  deriving DecidableEq

/-- A step of one of the threads that have the views. -/
inductive Action where
  /-- `Content::of`. -/
  | make (bytes : Bytes)
  | clone (i : Nat)
  | absorb (i : Nat) (bytes : Bytes)
  | stamped (i : Nat) (stamp : Option Stamp)
  | sealedStamped (i : Nat) (sealed : List (Option Stamp))
  | seal (i : Nat)
  /-- `Content::adopt` begins on a view, with another. -/
  | adopt (i j : Nat)
  /-- The adoption that runs on a view takes its next lock. -/
  | proceed (i : Nat)
  deriving DecidableEq

namespace System

def empty : System := ⟨[], []⟩

/-- A view nobody is changing. -/
def idle (s : System) (i : Nat) : Option View :=
  match s.views[i]? with
  | some ⟨v, .idle⟩ => some v
  | _ => none

/-- Changes to a view that leave its bytes. -/
def restamp (s : System) (i : Nat) (f : View → View) : Option System :=
  (s.idle i).map fun v => { s with views := s.views.set i ⟨f v, .idle⟩ }

/-- One step, if it can be taken: what changes a view borrows it alone. -/
def step (s : System) : Action → Option System
  | .make bytes =>
      some ⟨s.heap ++ [bytes], s.views ++ [⟨⟨s.heap.length, bytes.length, none, []⟩, .idle⟩]⟩
  | .clone i => (s.idle i).map fun v => { s with views := s.views ++ [⟨v, .idle⟩] }
  | .absorb i bytes =>
      (s.idle i).map fun v =>
        ⟨(Shared.absorb s.heap v bytes).1, s.views.set i ⟨(Shared.absorb s.heap v bytes).2, .idle⟩⟩
  | .stamped i stamp => s.restamp i fun v => { v with stamp }
  | .sealedStamped i sealed => s.restamp i fun v => { v with sealed }
  | .seal i => s.restamp i fun v => { v with stamp := none, sealed := v.sealed ++ [none] }
  | .adopt i j => do
      let v ← s.idle i
      let other ← s.idle j
      some { s with views := s.views.set i ⟨v, compare s.heap v other⟩ }
  | .proceed i =>
      match s.views[i]? with
      | some ⟨v, .compared other⟩ =>
          some { s with views := s.views.set i ⟨v, .copied other (copyRest s.heap v other)⟩ }
      | some ⟨v, .copied other rest⟩ =>
          some ⟨(adopted s.heap v other rest).1,
            s.views.set i ⟨(adopted s.heap v other rest).2, .idle⟩⟩
      | _ => none

def run (s : System) (actions : List Action) : Option System := actions.foldlM step s

/-- What each view holds. -/
def contents (s : System) : List Content := s.views.map fun l => l.view.content s.heap

end System

/-- What a step does to views that own their bytes. -/
def owned (cs : List Content) : Action → List Content
  | .make bytes => cs ++ [⟨bytes, none, []⟩]
  | .clone i => cs ++ cs[i]?.toList
  | .absorb i bytes => cs.modify i fun c => { c with bytes := c.bytes ++ bytes, stamp := none }
  | .stamped i stamp => cs.modify i fun c => { c with stamp }
  | .sealedStamped i sealed => cs.modify i fun c => { c with sealed }
  | .seal i => cs.modify i fun c => { c with stamp := none, sealed := c.sealed ++ [none] }
  | .adopt _ _ | .proceed _ => cs

/-! ## Buffers only grow -/

/-- Every buffer is still there, with more bytes at its end. -/
structure Grows (h h' : Heap) : Prop where
  length : h.length ≤ h'.length
  bytes : ∀ address < h.length, h.bytes address <+: h'.bytes address

theorem Grows.refl (h : Heap) : Grows h h := ⟨le_refl _, fun _ _ => List.prefix_refl _⟩

theorem grows_append (h : Heap) (bytes : Bytes) : Grows h (h ++ [bytes]) := by
  refine ⟨by simp, fun address haddress => ?_⟩
  rw [Heap.bytes, Heap.bytes, List.getElem?_append_left haddress]

theorem bytes_append_length (h : Heap) (bytes : Bytes) :
    Heap.bytes (h ++ [bytes]) h.length = bytes := by
  simp [Heap.bytes]

theorem bytes_set {h : Heap} {address : Nat} (haddress : address < h.length) (bytes : Bytes)
    (a : Nat) : Heap.bytes (h.set address bytes) a = if address = a then bytes else h.bytes a := by
  rw [Heap.bytes, List.getElem?_set]
  by_cases heq : address = a
  · simp [heq, heq ▸ haddress]
  · simp [heq, Heap.bytes]

theorem grows_set {h : Heap} {address : Nat} (haddress : address < h.length) (more : Bytes) :
    Grows h (h.set address (h.bytes address ++ more)) := by
  refine ⟨by simp, fun a _ => ?_⟩
  rw [bytes_set haddress]
  split_ifs with heq
  · exact heq ▸ List.prefix_append _ _
  · exact List.prefix_refl _

/-- A view within its buffer. -/
structure Fits (h : Heap) (v : View) : Prop where
  retained : v.retained < h.length
  length : v.length ≤ (h.bytes v.retained).length

variable {h h' : Heap} {v other : View} {bytes rest : Bytes}

/-- The start of a buffer stays as it is. -/
theorem Grows.take (hg : Grows h h') {address n : Nat} (haddress : address < h.length)
    (hn : n ≤ (h.bytes address).length) : (h'.bytes address).take n = (h.bytes address).take n := by
  obtain ⟨more, hmore⟩ := hg.bytes address haddress
  rw [← hmore, List.take_append_of_le_length hn]

theorem Fits.grows (hv : Fits h v) (hg : Grows h h') : Fits h' v :=
  ⟨hv.retained.trans_le hg.length, hv.length.trans (hg.bytes _ hv.retained).length_le⟩

theorem Fits.content (hv : Fits h v) (hg : Grows h h') : v.content h' = v.content h := by
  rw [View.content, View.content, hg.take hv.retained hv.length]

/-- Bytes that agree with a buffer as far as it goes on, and go on where it ends. -/
theorem take_extended {retained : Bytes} {length : Nat} (hlength : length ≤ retained.length)
    (hahead : (retained.drop length).take (min (retained.length - length) bytes.length) =
      bytes.take (min (retained.length - length) bytes.length)) :
    (retained ++ bytes.drop (min (retained.length - length) bytes.length)).take
      (length + bytes.length) = retained.take length ++ bytes := by
  rcases Nat.le_total bytes.length (retained.length - length) with hle | hle
  · -- the buffer already has all of them
    rw [Nat.min_eq_right hle, List.take_of_length_le (le_refl bytes.length)] at hahead
    rw [Nat.min_eq_right hle, List.drop_length, List.append_nil, List.take_add, hahead]
  · rw [Nat.min_eq_left hle, List.take_of_length_le (by simp)] at hahead
    have hsplit :
        retained ++ bytes.drop (retained.length - length) = retained.take length ++ bytes :=
      calc retained ++ bytes.drop (retained.length - length)
          = retained.take length ++ retained.drop length ++
              bytes.drop (retained.length - length) := by
            rw [List.take_append_drop]
        _ = retained.take length ++ bytes := by
            rw [hahead, List.append_assoc, List.take_append_drop]
    rw [Nat.min_eq_left hle, hsplit, List.take_of_length_le]
    simp [hlength]

/-- **A view that absorbs bytes holds them after its own**, and every buffer keeps its start. -/
theorem absorb_spec (hv : Fits h v) (bytes : Bytes) :
    Grows h (absorb h v bytes).1 ∧ Fits (absorb h v bytes).1 (absorb h v bytes).2 ∧
      (absorb h v bytes).2.content (absorb h v bytes).1 =
        { v.content h with bytes := (v.content h).bytes ++ bytes, stamp := none } := by
  unfold absorb
  dsimp only
  split_ifs with hahead
  · have htake := take_extended hv.length hahead
    refine ⟨grows_set hv.retained _, ⟨by simpa using hv.retained, ?_⟩, ?_⟩
    · have hlength := congrArg List.length htake
      dsimp only
      rw [bytes_set hv.retained, if_pos rfl]
      simp only [List.length_take, List.length_append, Nat.min_eq_left hv.length] at hlength ⊢
      omega
    · simp only [View.content, bytes_set hv.retained, if_true, htake]
  · refine ⟨grows_append h _, ⟨by simp, ?_⟩, ?_⟩
    · simp [bytes_append_length, hv.length]
    · simp only [View.content, bytes_append_length]
      rw [List.take_of_length_le]
      simp [hv.length]

/-! ## Adoptions -/

/-- What a running adoption has found out, and no other view can undo. -/
def Ready (h : Heap) (v : View) : Phase → Prop
  | .idle => True
  | .compared other => Fits h other ∧ (h.bytes v.retained).take (common v other) =
      (h.bytes other.retained).take (common v other)
  | .copied other rest => Fits h other ∧
      (h.bytes other.retained).take (common v other) ++ rest = (h.bytes v.retained).take v.length

theorem Ready.grows {phase : Phase} (hr : Ready h v phase) (hv : Fits h v) (hg : Grows h h') :
    Ready h' v phase := by
  have hcommon {other : View} (hother : Fits h other) :
      (h'.bytes other.retained).take (common v other) =
      (h.bytes other.retained).take (common v other) :=
    hg.take hother.retained ((common_le_right v other).trans hother.length)
  cases phase with
  | idle => trivial
  | compared other =>
      refine ⟨hr.1.grows hg, ?_⟩
      rw [hcommon hr.1, hg.take hv.retained ((common_le_left v other).trans hv.length), hr.2]
  | copied other rest =>
      refine ⟨hr.1.grows hg, ?_⟩
      rw [hcommon hr.1, hg.take hv.retained hv.length, hr.2]

theorem ready_compare (hother : Fits h other) : Ready h v (compare h v other) := by
  unfold compare
  split_ifs with _ _ hsame
  · trivial
  · trivial
  · exact ⟨hother, hsame⟩
  · trivial

theorem ready_copied (hr : Ready h v (.compared other)) :
    Ready h v (.copied other (copyRest h v other)) := by
  refine ⟨hr.1, ?_⟩
  rw [← hr.2, copyRest, ← List.take_add, Nat.add_sub_cancel' (common_le_left v other)]

/-- **Only storage moves**: an adoption leaves a view its bytes and stamps. -/
theorem adopted_spec (hv : Fits h v) (hr : Ready h v (.copied other rest)) :
    Grows h (adopted h v other rest).1 ∧
      Fits (adopted h v other rest).1 (adopted h v other rest).2 ∧
      (adopted h v other rest).2.content (adopted h v other rest).1 = v.content h := by
  have hstart : Fits h ⟨other.retained, common v other, none, []⟩ :=
    ⟨hr.1.retained, (common_le_right v other).trans hr.1.length⟩
  obtain ⟨hg, hfits, hcontent⟩ := absorb_spec hstart rest
  unfold adopted
  dsimp only
  split_ifs with hshared
  · refine ⟨hg, ⟨hfits.retained, hfits.length⟩, ?_⟩
    have hbytes := congrArg Content.bytes hcontent
    simp only [View.content] at hbytes ⊢
    rw [hbytes, hr.2]
  · exact ⟨hg, hv.grows hg, hv.content hg⟩

/-! ## Runs -/

namespace System

/-- Every view is within its buffer, and every running adoption can go on. -/
def Sound (s : System) : Prop :=
  ∀ l ∈ s.views, Fits s.heap l.view ∧ Ready s.heap l.view l.phase

variable {s s' : System} {i : Nat}

theorem Sound.grows (hs : s.Sound) (hg : Grows s.heap h') : Sound ⟨h', s.views⟩ := by
  intro l hl
  obtain ⟨hfits, hready⟩ := hs l hl
  exact ⟨hfits.grows hg, hready.grows hfits hg⟩

theorem Sound.contents_grows (hs : s.Sound) (hg : Grows s.heap h') :
    contents ⟨h', s.views⟩ = s.contents :=
  List.map_congr_left fun l hl => (hs l hl).1.content hg

theorem Sound.set (hs : s.Sound) {l : Live} (hfits : Fits s.heap l.view)
    (hready : Ready s.heap l.view l.phase) : Sound ⟨s.heap, s.views.set i l⟩ := by
  intro l' hl'
  rcases List.mem_or_eq_of_mem_set hl' with hl' | rfl
  · exact hs l' hl'
  · exact ⟨hfits, hready⟩

theorem contents_set (heap : Heap) (views : List Live) (l : Live) :
    contents ⟨heap, views.set i l⟩ = (contents ⟨heap, views⟩).set i (l.view.content heap) :=
  List.map_set

theorem idle_eq_some_iff : s.idle i = some v ↔ s.views[i]? = some ⟨v, .idle⟩ := by
  unfold idle
  split
  · next v' hv' => simp [hv']
  · next hother =>
      refine iff_of_false (by simp) fun hv => hother v hv

theorem getElem?_contents {l : Live} (hl : s.views[i]? = some l) :
    s.contents[i]? = some (l.view.content s.heap) := by
  rw [contents, List.getElem?_map, hl, Option.map_some]

theorem modify_eq_set {cs : List Content} {c : Content} (hc : cs[i]? = some c)
    (f : Content → Content) : cs.modify i f = cs.set i (f c) := by
  rw [List.modify_eq_set_getElem?, hc]
  rfl

theorem set_self {cs : List Content} {c : Content} (hc : cs[i]? = some c) : cs.set i c = cs := by
  obtain ⟨hi, rfl⟩ := List.getElem?_eq_some_iff.mp hc
  exact List.set_getElem_self hi

/-- A step that changes one view and lets the buffers grow. -/
theorem Sound.update (hs : s.Sound) {l m : Live} (hg : Grows s.heap h')
    (hfits : Fits h' m.view) (hready : Ready h' m.view m.phase) (hl : s.views[i]? = some l)
    {f : Content → Content} (hcontent : m.view.content h' = f (l.view.content s.heap)) :
    Sound ⟨h', s.views.set i m⟩ ∧ contents ⟨h', s.views.set i m⟩ = s.contents.modify i f := by
  refine ⟨(hs.grows hg).set hfits hready, ?_⟩
  rw [contents_set, hs.contents_grows hg, hcontent, modify_eq_set (getElem?_contents hl)]

/-- The same, of a step that leaves the view's content. -/
theorem Sound.keep (hs : s.Sound) {l m : Live} (hg : Grows s.heap h')
    (hfits : Fits h' m.view) (hready : Ready h' m.view m.phase) (hl : s.views[i]? = some l)
    (hcontent : m.view.content h' = l.view.content s.heap) :
    Sound ⟨h', s.views.set i m⟩ ∧ contents ⟨h', s.views.set i m⟩ = s.contents := by
  refine ⟨(hs.grows hg).set hfits hready, ?_⟩
  rw [contents_set, hs.contents_grows hg, hcontent, set_self (getElem?_contents hl)]

theorem Sound.concat (hs : s.Sound) (hg : Grows s.heap h') (hfits : Fits h' v) :
    Sound ⟨h', s.views ++ [⟨v, .idle⟩]⟩ ∧
      contents ⟨h', s.views ++ [⟨v, .idle⟩]⟩ = s.contents ++ [v.content h'] := by
  constructor
  · intro l hl
    rcases List.mem_append.mp hl with hl | hl
    · exact hs.grows hg l hl
    · obtain rfl := List.mem_singleton.mp hl
      exact ⟨hfits, trivial⟩
  · rw [← hs.contents_grows hg]
    exact List.map_append

theorem Sound.restamp (hs : s.Sound) {f : View → View} {g : Content → Content}
    (hstep : s.restamp i f = some s') (hretained : ∀ v, (f v).retained = v.retained)
    (hlength : ∀ v, (f v).length = v.length) (hcontent : ∀ h v, (f v).content h = g (v.content h)) :
    s'.Sound ∧ s'.contents = s.contents.modify i g := by
  obtain ⟨v, hidle, rfl⟩ := Option.map_eq_some_iff.mp hstep
  have hl := idle_eq_some_iff.mp hidle
  have hfits := (hs _ (List.mem_of_getElem? hl)).1
  refine hs.update (m := ⟨f v, .idle⟩) (.refl _) ⟨?_, ?_⟩ trivial hl (hcontent s.heap v)
  · rw [hretained]
    exact hfits.retained
  · rw [hretained, hlength]
    exact hfits.length

/-- **A step of views that share buffers is the step of views that own their bytes.** -/
theorem step_refines {a : Action} (hs : s.Sound) (hstep : s.step a = some s') :
    s'.Sound ∧ s'.contents = owned s.contents a := by
  cases a with
  | make bytes =>
      obtain rfl := Option.some.inj hstep
      obtain ⟨hsound, hcontents⟩ := hs.concat (grows_append s.heap bytes)
        (v := ⟨s.heap.length, bytes.length, none, []⟩) ⟨by simp, by simp [bytes_append_length]⟩
      refine ⟨hsound, hcontents.trans ?_⟩
      simp [owned, View.content, bytes_append_length]
  | clone i =>
      obtain ⟨v, hidle, rfl⟩ := Option.map_eq_some_iff.mp hstep
      have hl := idle_eq_some_iff.mp hidle
      obtain ⟨hsound, hcontents⟩ := hs.concat (.refl _) (hs _ (List.mem_of_getElem? hl)).1
      refine ⟨hsound, hcontents.trans ?_⟩
      rw [owned, getElem?_contents hl]
      rfl
  | absorb i bytes =>
      obtain ⟨v, hidle, rfl⟩ := Option.map_eq_some_iff.mp hstep
      have hl := idle_eq_some_iff.mp hidle
      obtain ⟨hg, hfits, hcontent⟩ := absorb_spec (hs _ (List.mem_of_getElem? hl)).1 bytes
      exact hs.update (m := ⟨_, .idle⟩) hg hfits trivial hl hcontent
  | stamped i stamp => exact hs.restamp hstep (fun _ => rfl) (fun _ => rfl) fun _ _ => rfl
  | sealedStamped i sealed => exact hs.restamp hstep (fun _ => rfl) (fun _ => rfl) fun _ _ => rfl
  | «seal» i => exact hs.restamp hstep (fun _ => rfl) (fun _ => rfl) fun _ _ => rfl
  | adopt i j =>
      obtain ⟨v, hidle, hstep⟩ := Option.bind_eq_some_iff.mp hstep
      obtain ⟨other, hother, hstep⟩ := Option.bind_eq_some_iff.mp hstep
      obtain rfl := Option.some.inj hstep
      have hl := idle_eq_some_iff.mp hidle
      have hfits := (hs _ (List.mem_of_getElem? (idle_eq_some_iff.mp hother))).1
      exact hs.keep (.refl _) (hs _ (List.mem_of_getElem? hl)).1 (ready_compare hfits) hl rfl
  | proceed i =>
      simp only [step] at hstep
      split at hstep
      · next v other hl =>
          obtain rfl := Option.some.inj hstep
          obtain ⟨hfits, hready⟩ := hs _ (List.mem_of_getElem? hl)
          exact hs.keep (.refl _) hfits (ready_copied hready) hl rfl
      · next v other rest hl =>
          obtain rfl := Option.some.inj hstep
          obtain ⟨hfits, hready⟩ := hs _ (List.mem_of_getElem? hl)
          obtain ⟨hg, hmoved, hcontent⟩ := adopted_spec hfits hready
          exact hs.keep (m := ⟨_, .idle⟩) hg hmoved trivial hl hcontent
      · cases hstep

theorem run_cons {a : Action} {rest : List Action} :
    s.run (a :: rest) = some s' ↔ ∃ s₁, s.step a = some s₁ ∧ s₁.run rest = some s' := by
  rw [run, List.foldlM_cons]
  exact Option.bind_eq_some_iff

/-- **Sharing is invisible**: over every run the views hold what views of their own bytes would. -/
theorem run_refines {actions : List Action} (hs : s.Sound) (hrun : s.run actions = some s') :
    s'.Sound ∧ s'.contents = actions.foldl owned s.contents := by
  induction actions generalizing s with
  | nil =>
      obtain rfl := Option.some.inj hrun
      exact ⟨hs, rfl⟩
  | cons a rest ih =>
      obtain ⟨s₁, hstep, hrest⟩ := run_cons.mp hrun
      obtain ⟨hsound, hcontents⟩ := step_refines hs hstep
      rw [List.foldl_cons, ← hcontents]
      exact ih hsound hrest

end System

/-! ## What a view holds -/

/-- The first `length` bytes of a view. -/
def System.held (s : System) (i : Nat) : Option Bytes := s.contents[i]?.map (·.bytes)

/-- The tail a step absorbs on one view. -/
def Action.tail (i : Nat) : Action → Bytes
  | .absorb j bytes => if j = i then bytes else []
  | _ => []

/-- The tails a run absorbs on one view. -/
def absorbed (i : Nat) (actions : List Action) : Bytes := actions.flatMap (Action.tail i)

section Owned

variable {cs : List Content} {i : Nat}

theorem length_le_owned (cs : List Content) (a : Action) : cs.length ≤ (owned cs a).length := by
  cases a <;> simp [owned]

theorem bytes_append (hi : i < cs.length) (more : List Content) :
    (cs ++ more)[i]?.map (·.bytes) = cs[i]?.map (·.bytes) := by
  rw [List.getElem?_append_left hi]

theorem bytes_modify (j : Nat) (f : Content → Content) :
    (cs.modify j f)[i]?.map (·.bytes) =
      cs[i]?.map fun c => if j = i then (f c).bytes else c.bytes := by
  rw [List.getElem?_modify]
  cases cs[i]? with
  | none => rfl
  | some c => by_cases hji : j = i <;> simp [hji]

/-- A step adds to a view's bytes the tail it absorbs there. -/
theorem bytes_owned (hi : i < cs.length) (a : Action) :
    (owned cs a)[i]?.map (·.bytes) = cs[i]?.map fun c => c.bytes ++ a.tail i := by
  cases a with
  | absorb j bytes =>
      rw [owned, bytes_modify]
      by_cases hji : j = i <;> simp [hji, Action.tail]
  | _ => simp [owned, bytes_append hi, bytes_modify, Action.tail]

theorem bytes_foldl_owned (hi : i < cs.length) (actions : List Action) :
    (actions.foldl owned cs)[i]?.map (·.bytes) =
      (cs[i]?.map (·.bytes)).map (· ++ absorbed i actions) := by
  induction actions generalizing cs with
  | nil => simp [absorbed, Function.comp_def]
  | cons a rest ih =>
      rw [List.foldl_cons, ih (hi.trans_le (length_le_owned cs a)), bytes_owned hi]
      simp [absorbed, Function.comp_def]

end Owned

namespace System

variable {s s' s₁ : System}

theorem Sound.held_run (hs : s.Sound) {later : List Action} (hlater : s.run later = some s')
    {i : Nat} (hi : i < s.views.length) : s'.held i = (s.held i).map (· ++ absorbed i later) := by
  rw [held, (run_refines hs hlater).2, bytes_foldl_owned (by simpa [contents] using hi), held]

theorem Sound.held_make (hs : s.Sound) {bytes : Bytes} (hstep : s.step (.make bytes) = some s₁) :
    s₁.held s.views.length = some bytes := by
  rw [held, (step_refines hs hstep).2]
  simp [owned, contents]

theorem Sound.held_clone (hs : s.Sound) {j : Nat} (hstep : s.step (.clone j) = some s₁) :
    s₁.held s.views.length = s.held j := by
  rw [held, (step_refines hs hstep).2, held, owned,
    List.getElem?_append_right (by simp [contents])]
  cases hj : s.contents[j]? <;> simp [contents]

theorem sound_empty : empty.Sound := by
  intro l hl
  cases hl

end System

/-- **Shared buffers never change under a view.**  In every state that a run reaches, a view is
    within its buffer, and whatever run follows, of any views' operations in any order, leaves it
    with the bytes it had and the tails it absorbed itself.  A new view has the bytes it is made of,
    and a clone the bytes of the view it is made from. -/
theorem shared_content {before later : List Action} {s s' : System}
    (hbefore : System.empty.run before = some s) (hlater : s.run later = some s') :
    (∀ l ∈ s.views, l.view.length ≤ (s.heap.bytes l.view.retained).length) ∧
      (∀ i < s.views.length, s'.held i = (s.held i).map (· ++ absorbed i later)) ∧
      (∀ bytes s₁, s.step (.make bytes) = some s₁ → s₁.held s.views.length = some bytes) ∧
      (∀ j s₁, s.step (.clone j) = some s₁ → s₁.held s.views.length = s.held j) := by
  have hs := (System.run_refines System.sound_empty hbefore).1
  refine ⟨fun l hl => (hs l hl).1.length, fun i hi => hs.held_run hlater hi, ?_, ?_⟩
  · exact fun bytes s₁ hstep => hs.held_make hstep
  · exact fun j s₁ hstep => hs.held_clone hstep

/-- A view and its clone go on differently, and the first is adopted by a third view while the
    clone absorbs. -/
theorem shared_content_diverging :
    ∃ s s', System.empty.run [.make [1, 2], .clone 0, .make [1, 2, 3]] = some s ∧
      s.run [.absorb 0 [3], .adopt 0 2, .absorb 1 [4], .proceed 0, .absorb 2 [5], .proceed 0,
        .absorb 0 [6]] = some s' ∧
      s'.held 0 = (s.held 0).map (· ++ [3, 6]) ∧ s'.held 1 = (s.held 1).map (· ++ [4]) := by
  have hheld := (@shared_content [.make [1, 2], .clone 0, .make [1, 2, 3]]
    [.absorb 0 [3], .adopt 0 2, .absorb 1 [4], .proceed 0, .absorb 2 [5], .proceed 0, .absorb 0 [6]]
    _ _ rfl rfl).2.1
  exact ⟨_, _, rfl, rfl, hheld 0 (by decide), hheld 1 (by decide)⟩

end Eventlog.File.Shared
