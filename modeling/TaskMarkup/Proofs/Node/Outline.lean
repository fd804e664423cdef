import Mathlib.Data.List.Basic
import TaskMarkup.Node.Outline

/-!
What a drawing tells of the forest that it shows. Each node has a line of its own, in preorder, that
begins with a stem and a connector. They say where the node stands: how deep, and whether it and each
node above it is the last of its siblings. Reading them back gives the place, so that forests with the
same drawing have the same shape.
-/

namespace TaskMarkup

namespace Tree

variable {α β : Type}

/-- Where a node of a forest stands: whether each node above it, from the outermost in, is the last of
its siblings, and whether it is so itself. -/
structure Place where
  above : List Bool
  last : Bool
  deriving DecidableEq, Repr

def Place.depth (p : Place) : Nat := p.above.length

mutual

def places (above : List Bool) (last : Bool) : Tree α → List (Place × α)
  | .node a ts => (⟨above, last⟩, a) :: placesForest (above ++ [last]) ts

def placesForest (above : List Bool) : List (Tree α) → List (Place × α)
  | [] => []
  | t :: ts => t.places above ts.isEmpty ++ placesForest above ts

end

def shape (t : Tree α) : Tree Unit := t.map fun _ => ()

theorem shape_node (a : α) (ts : List (Tree α)) : shape (.node a ts) = .node () (ts.map shape) := by
  rw [shape, map, mapForest_eq_map]
  rfl

mutual

theorem map_snd_places (above : List Bool) (last : Bool) :
    (t : Tree α) → (t.places above last).map Prod.snd = t.preorder
  | .node a ts => by rw [places, preorder, List.map_cons, map_snd_placesForest]

theorem map_snd_placesForest (above : List Bool) :
    (ts : List (Tree α)) → (placesForest above ts).map Prod.snd = preorderForest ts
  | [] => rfl
  | t :: ts => by
    rw [placesForest, preorderForest, List.map_append, map_snd_places, map_snd_placesForest]

end

mutual

theorem places_map (f : α → β) (above : List Bool) (last : Bool) : (t : Tree α) →
    (t.map f).places above last = (t.places above last).map (Prod.map id f)
  | .node a ts => by
    rw [map, places, places, List.map_cons, placesForest_mapForest]
    rfl

theorem placesForest_mapForest (f : α → β) (above : List Bool) : (ts : List (Tree α)) →
    placesForest above (mapForest f ts) = (placesForest above ts).map (Prod.map id f)
  | [] => rfl
  | t :: ts => by
    have hempty : (mapForest f ts).isEmpty = ts.isEmpty := by cases ts <;> rfl
    rw [mapForest, placesForest, placesForest, List.map_append, hempty, places_map,
      placesForest_mapForest]

end

theorem head?_placesForest_cons (above : List Bool) (t : Tree α) (ts : List (Tree α))
    (r : List Place) :
    ((placesForest above (t :: ts)).map Prod.fst ++ r).head? = some ⟨above, ts.isEmpty⟩ := by
  cases t
  rfl

theorem depth_head?_placesForest {above : List Bool} {r : List Place}
    (hr : ∀ p ∈ r.head?, p.depth < above.length) (ts : List (Tree α)) :
    ∀ p ∈ ((placesForest above ts).map Prod.fst ++ r).head?, p.depth ≤ above.length := by
  intro p hp
  cases ts with
  | nil => exact Nat.le_of_lt (hr p hp)
  | cons t ts =>
    rw [head?_placesForest_cons, Option.mem_some_iff] at hp
    subst hp
    exact Nat.le_refl _

mutual

theorem shape_eq_of_places {above : List Bool} {last last' : Bool} {r r' : List Place}
    (hr : ∀ p ∈ r.head?, p.depth ≤ above.length) (hr' : ∀ p ∈ r'.head?, p.depth ≤ above.length) :
    (t : Tree α) → (u : Tree β) →
    (t.places above last).map Prod.fst ++ r = (u.places above last').map Prod.fst ++ r' →
    t.shape = u.shape ∧ r = r'
  | .node a ts, .node b us, h => by
    simp only [places, List.map_cons, List.cons_append, List.cons.injEq, Place.mk.injEq,
      true_and] at h
    obtain ⟨rfl, h⟩ := h
    have hdeeper {n : Nat} (hn : n ≤ above.length) : n < (above ++ [last]).length := by
      rw [List.length_append]
      exact Nat.lt_succ_of_le hn
    obtain ⟨hshape, hrest⟩ := shape_eq_of_placesForest (fun p hp => hdeeper (hr p hp))
      (fun p hp => hdeeper (hr' p hp)) ts us h
    rw [shape_node, shape_node, hshape]
    exact ⟨rfl, hrest⟩

theorem shape_eq_of_placesForest {above : List Bool} {r r' : List Place}
    (hr : ∀ p ∈ r.head?, p.depth < above.length) (hr' : ∀ p ∈ r'.head?, p.depth < above.length) :
    (ts : List (Tree α)) → (us : List (Tree β)) →
    (placesForest above ts).map Prod.fst ++ r = (placesForest above us).map Prod.fst ++ r' →
    ts.map shape = us.map shape ∧ r = r'
  | [], [], h => ⟨rfl, h⟩
  -- A forest that is longer than the other would go on with a place as deep as its roots.
  | [], u :: us, h => by
    have hhead : r.head? = some ⟨above, us.isEmpty⟩ :=
      (congrArg List.head? h).trans (head?_placesForest_cons above u us r')
    exact absurd (hr _ hhead) (Nat.lt_irrefl _)
  | t :: ts, [], h => by
    have hhead : r'.head? = some ⟨above, ts.isEmpty⟩ :=
      (congrArg List.head? h).symm.trans (head?_placesForest_cons above t ts r)
    exact absurd (hr' _ hhead) (Nat.lt_irrefl _)
  | t :: ts, u :: us, h => by
    simp only [placesForest, List.map_append, List.append_assoc] at h
    obtain ⟨ht, h⟩ := shape_eq_of_places (depth_head?_placesForest hr ts)
      (depth_head?_placesForest hr' us) t u h
    obtain ⟨hts, hrest⟩ := shape_eq_of_placesForest hr hr' ts us h
    rw [List.map_cons, List.map_cons, ht, hts]
    exact ⟨rfl, hrest⟩

end

end Tree

namespace Outline

def stem (above : List Bool) : String := String.join (above.map stemStep)

def guide (p : Tree.Place) : String := stem p.above ++ connector p.last

def place? : List Char → Option Tree.Place
  | ' ' :: ' ' :: cs => (place? cs).map fun p => { p with above := true :: p.above }
  | '│' :: ' ' :: cs => (place? cs).map fun p => { p with above := false :: p.above }
  | '└' :: '─' :: _ => some ⟨[], true⟩
  | '├' :: '─' :: _ => some ⟨[], false⟩
  | _ => none

theorem place?_connector (last : Bool) (cs : List Char) :
    place? ((connector last).toList ++ cs) = some ⟨[], last⟩ := by
  cases last <;> rfl

theorem place?_stemStep (last : Bool) (cs : List Char) :
    place? ((stemStep last).toList ++ cs) =
      (place? cs).map fun p => { p with above := last :: p.above } := by
  cases last <;> rfl

theorem place?_guide (p : Tree.Place) (label : String) :
    place? (guide p ++ label).toList = some p := by
  obtain ⟨above, last⟩ := p
  induction above with
  | nil =>
    rw [guide, stem, List.map_nil, String.toList_append]
    exact place?_connector last label.toList
  | cons step above ih =>
    have hguide : guide ⟨step :: above, last⟩ = stemStep step ++ guide ⟨above, last⟩ := by
      simp [guide, stem, String.append_assoc]
    rw [hguide, String.append_assoc, String.toList_append, place?_stemStep, ih]
    rfl

theorem stem_concat (above : List Bool) (last : Bool) :
    stem (above ++ [last]) = stem above ++ stemStep last := by
  simp [stem, String.join_append]

mutual

theorem lines_eq_map_places (above : List Bool) (last : Bool) : (t : Tree String) →
    lines (stem above) last t = (t.places above last).map fun x => guide x.1 ++ x.2
  | .node label ts => by
    rw [lines, Tree.places, List.map_cons, ← stem_concat, forestLines_eq_map_places]
    rfl

theorem forestLines_eq_map_places (above : List Bool) : (ts : List (Tree String)) →
    forestLines (stem above) ts = (Tree.placesForest above ts).map fun x => guide x.1 ++ x.2
  | [] => rfl
  | t :: ts => by
    rw [forestLines, Tree.placesForest, List.map_append, lines_eq_map_places,
      forestLines_eq_map_places]

end

end Outline

namespace Text

def OneLine (s : String) : Prop := '\n' ∉ s.toList

instance (s : String) : Decidable (OneLine s) := inferInstanceAs (Decidable ('\n' ∉ s.toList))

theorem OneLine.append {s t : String} (hs : OneLine s) (ht : OneLine t) : OneLine (s ++ t) := by
  rw [OneLine, String.toList_append, List.mem_append, not_or]
  exact ⟨hs, ht⟩

theorem OneLine.join {ss : List String} (h : ∀ s ∈ ss, OneLine s) : OneLine (String.join ss) := by
  rw [OneLine, String.toList_join, List.mem_flatMap]
  rintro ⟨s, hs, hmem⟩
  exact h s hs hmem

theorem oneLine_toString (n : Nat) : OneLine (toString n) := by
  rw [OneLine, Nat.toString_eq_repr, Nat.toList_repr]
  intro h
  have hdigit := Nat.isDigit_of_mem_toDigits (by decide) (by decide) h
  exact absurd hdigit (by decide)

theorem splitOn_join {ls : List String} (h : ∀ l ∈ ls, OneLine l) :
    (String.join (ls.map (· ++ "\n"))).toList.splitOn '\n' = ls.map String.toList ++ [[]] := by
  have hjoin : (String.join (ls.map (· ++ "\n"))).toList =
      ['\n'].intercalate (ls.map String.toList ++ [[]]) := by
    induction ls with
    | nil => rfl
    | cons l ls ih =>
      rw [List.map_cons, List.map_cons, String.join_cons, String.toList_append, String.toList_append,
        ih fun l hl => h l (List.mem_cons_of_mem _ hl), List.cons_append, List.append_assoc]
      cases ls <;> rfl
  rw [hjoin]
  refine List.splitOn_intercalate '\n' (fun l hl => ?_) (by simp)
  rcases List.mem_append.1 hl with hl | hl
  · obtain ⟨s, hs, rfl⟩ := List.mem_map.1 hl
    exact h s hs
  · rw [List.mem_singleton.1 hl]
    exact List.not_mem_nil

end Text

open Text (OneLine)

theorem Container.oneLine_icon (kind : Container) : OneLine kind.icon := by
  unfold icon
  split <;> decide

theorem Block.oneLine_icon (b : Block) : OneLine b.icon := by
  unfold icon
  split
  case h_6 => exact Container.oneLine_icon _
  all_goals decide

theorem Style.oneLine_icon (style : Style) : OneLine style.icon := by cases style <;> decide

theorem Inline.oneLine_icon (i : Inline) : OneLine i.icon := by
  unfold icon
  split
  case h_2 => exact Style.oneLine_icon _
  all_goals decide

namespace Node

theorem oneLine_icon (n : Node) : OneLine n.icon := by
  unfold icon
  split
  · exact Block.oneLine_icon _
  · exact Inline.oneLine_icon _
  · decide

theorem oneLine_shorten (size : Nat) (label : String) : OneLine (shorten size label) := by
  let cs := label.toList.map fun c => if c = '\n' then '↵' else c
  have hcs : '\n' ∉ cs := by
    intro h
    obtain ⟨c, -, hc⟩ := List.mem_map.1 h
    split at hc
    · exact absurd hc (by decide)
    · contradiction
  have hof {ds : List Char} (h : '\n' ∉ ds) : OneLine (String.ofList ds) := by
    rwa [OneLine, String.toList_ofList]
  change OneLine (if size < cs.length then String.ofList (cs.take size) ++ "..." else String.ofList cs)
  split
  · exact (hof fun h => hcs (List.mem_of_mem_take h)).append (by decide)
  · exact hof hcs

theorem oneLine_summary (o : OutlineOptions) (n : Node) : OneLine (n.summary o) := by
  have hlabel : OneLine (n.icon ++ " " ++ shorten o.truncate n.label) :=
    (n.oneLine_icon.append (by decide)).append (oneLine_shorten o.truncate n.label)
  have hoffsets : OneLine s!" {n.span.start}..{n.span.stop}" :=
    ((OneLine.append (by decide) (Text.oneLine_toString _)).append (by decide)).append
      (Text.oneLine_toString _)
  unfold summary
  split
  · exact hlabel.append hoffsets
  · exact hlabel.append (by decide)

end Node

namespace Outline

theorem oneLine_guide (p : Tree.Place) : OneLine (guide p) := by
  have hstep : ∀ s ∈ p.above.map stemStep, OneLine s := by
    intro s hs
    obtain ⟨last, -, rfl⟩ := List.mem_map.1 hs
    cases last <;> decide
  refine (OneLine.join hstep).append ?_
  cases p.last <;> decide

def placed (nodes : List Node) : List (Tree.Place × Node) :=
  Tree.placesForest [] (nodes.map Node.tree)

def heading (count : Nat) : String :=
  let noun := if count = 1 then "block" else "blocks"
  s!"⧉ {count} {noun}"

theorem oneLine_heading (count : Nat) : OneLine (heading count) := by
  refine (((OneLine.append (by decide) (Text.oneLine_toString _)).append (by decide)).append ?_)
  split <;> decide

def line (o : OutlineOptions) (x : Tree.Place × Node) : String := guide x.1 ++ x.2.summary o

def allLines (o : OutlineOptions) (nodes : List Node) : List String :=
  heading nodes.length :: (placed nodes).map (line o)

theorem oneLine_of_mem_allLines {o : OutlineOptions} {nodes : List Node} {l : String}
    (h : l ∈ allLines o nodes) : OneLine l := by
  rcases List.mem_cons.1 h with rfl | h
  · exact oneLine_heading _
  · obtain ⟨x, -, rfl⟩ := List.mem_map.1 h
    exact (oneLine_guide x.1).append (x.2.oneLine_summary o)

theorem draw_eq_join (o : OutlineOptions) (nodes : List Node) :
    draw o nodes = String.join ((allLines o nodes).map (· ++ "\n")) := by
  have hforest : nodes.map (fun n => n.tree.map (Node.summary o)) =
      Tree.mapForest (Node.summary o) (nodes.map Node.tree) := by
    rw [Tree.mapForest_eq_map, List.map_map]
    rfl
  have hlines := forestLines_eq_map_places []
    (Tree.mapForest (Node.summary o) (nodes.map Node.tree))
  rw [Tree.placesForest_mapForest, List.map_map, ← hforest] at hlines
  exact congrArg (fun ls => String.join ((heading nodes.length :: ls).map (· ++ "\n"))) hlines

theorem splitOn_draw (o : OutlineOptions) (nodes : List Node) :
    (draw o nodes).toList.splitOn '\n' = (allLines o nodes).map String.toList ++ [[]] := by
  rw [draw_eq_join, Text.splitOn_join fun _ => oneLine_of_mem_allLines]

theorem filterMap_place?_splitOn_draw (o : OutlineOptions) (nodes : List Node) :
    ((draw o nodes).toList.splitOn '\n').tail.filterMap place? = (placed nodes).map Prod.fst := by
  have hline (x : Tree.Place × Node) : place? (line o x).toList = some x.1 := place?_guide ..
  rw [splitOn_draw, allLines, List.map_cons, List.cons_append, List.tail_cons, List.filterMap_append,
    List.map_map, List.filterMap_map]
  simp [Function.comp_def, hline, place?]

theorem shape_eq_of_draw_eq {o o' : OutlineOptions} {nodes nodes' : List Node}
    (h : draw o nodes = draw o' nodes') :
    nodes.map (fun n => n.tree.shape) = nodes'.map fun n => n.tree.shape := by
  have hplaces : (placed nodes).map Prod.fst = (placed nodes').map Prod.fst := by
    rw [← filterMap_place?_splitOn_draw o nodes, ← filterMap_place?_splitOn_draw o' nodes', h]
  have hforest : (placed nodes).map Prod.fst ++ [] = (placed nodes').map Prod.fst ++ [] :=
    congrArg (· ++ []) hplaces
  obtain ⟨hshape, -⟩ := Tree.shape_eq_of_placesForest (by simp) (by simp) _ _ hforest
  rw [List.map_map, List.map_map] at hshape
  exact hshape

/-- A drawing has a heading and a line for each node, in preorder, whatever the labels hold. What a line
begins with tells where its node stands, and drawings that are the same show the same shape. -/
theorem draw_shows (o o' : OutlineOptions) (nodes nodes' : List Node) :
    (draw o nodes).toList.splitOn '\n' = (allLines o nodes).map String.toList ++ [[]] ∧
      (placed nodes).map Prod.snd = Tree.preorderForest (nodes.map Node.tree) ∧
      (∀ p label, place? (guide p ++ label).toList = some p) ∧
      (draw o nodes = draw o' nodes' →
        nodes.map (fun n => n.tree.shape) = nodes'.map fun n => n.tree.shape) :=
  ⟨splitOn_draw o nodes, Tree.map_snd_placesForest [] _, place?_guide, shape_eq_of_draw_eq⟩

theorem draw_shows_break :
    let text (t : String) : Node := .block (.paragraph ⟨0, 3, 0⟩ [.text ⟨0, 3, 0⟩ t])
    draw {} [text "a\nb"] = "⧉ 1 block\n└─ ¶ a↵b 0..3\n  └─ ◦ a↵b 0..3\n" ∧
      draw {} [text "a\nb"] = draw {} [text "a↵b"] ∧
      [text "a\nb"].map (fun n => n.tree.shape) = [text "a↵b"].map fun n => n.tree.shape := by
  intro text
  have h : draw {} [text "a\nb"] = draw {} [text "a↵b"] := by decide +kernel
  exact ⟨by decide +kernel, h, (draw_shows {} {} _ _).2.2.2 h⟩

end Outline

end TaskMarkup
