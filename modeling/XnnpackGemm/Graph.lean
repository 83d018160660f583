import Mathlib.Data.Finset.Card
import Mathlib.Data.List.GetD

/-!
# The torch.fx graph, as the GEMM configs read it

A node is named by its position in the graph's node list, and the graph object by its
`id`. The configs read a node's opcode, the `__name__` of its target, its positional
arguments and its users; keyword arguments and `meta` are not read (the implicit q/dq
tag is kept with the program state).

torch.fx keeps `users` as the inverse of the argument relation: assigning `node.args`
removes `node` from the users of its old inputs and adds it to the users of the new
ones. `Graph.setArgs` does the same, while `node.users = ...` is a plain attribute
write. `users` is a dict read only through its keys, so it is a `Finset` here.
-/

namespace XnnpackGemm

abbrev Node := Nat

inductive Op where
  | placeholder | getAttr | callFunction | callMethod | callModule | output
  deriving DecidableEq, Repr

/-- A positional argument: another node, or one of the literals the configs read. -/
inductive Arg where
  | node (n : Node)
  | int (v : Int)
  | ints (vs : List Int)
  | bool (b : Bool)
  | none
  deriving DecidableEq, Repr

/-- The node an argument refers to; reading a node attribute of a literal raises. -/
def Arg.node? : Arg → Option Node
  | .node n => some n
  | _ => Option.none

/-- Python truthiness. -/
def Arg.truthy : Arg → Bool
  | .node _ => true
  | .int v => v != 0
  | .ints vs => !vs.isEmpty
  | .bool b => b
  | .none => false

/-- An argument used as a list of ints (`len`, iteration); anything else raises. -/
def Arg.ints? : Arg → Option (List Int)
  | .ints vs => some vs
  | _ => Option.none

/-- An argument compared with an int; anything else raises. -/
def Arg.int? : Arg → Option Int
  | .int v => some v
  | _ => Option.none

@[simp] theorem Arg.node?_node (n : Node) : (Arg.node n).node? = some n := rfl

theorem Arg.node?_eq_some {a : Arg} {n : Node} : a.node? = some n ↔ a = .node n := by
  cases a <;> simp [Arg.node?]

theorem Arg.ints?_eq_some {a : Arg} {vs : List Int} : a.ints? = some vs ↔ a = .ints vs := by
  cases a <;> simp [Arg.ints?]

theorem Arg.int?_eq_some {a : Arg} {v : Int} : a.int? = some v ↔ a = .int v := by
  cases a <;> simp [Arg.int?]

@[ext]
structure NodeData where
  op : Op
  target : String
  args : List Arg
  users : Finset Node

/-- A graph object. torch.fx nodes compare by identity, so `id` tells the nodes of two
graph objects apart even where their positions agree. -/
@[ext]
structure Graph where
  id : Nat
  size : Nat
  node : Node → NodeData

/-- The graph object `id` with this node list, in order. -/
def Graph.ofList (id : Nat) (nodes : List NodeData) : Graph where
  id := id
  size := nodes.length
  node m := nodes.getD m ⟨.placeholder, "", [], ∅⟩

/-- Keeps the first occurrence of each node, as torch.fx fills `_input_nodes`. -/
def firstOccurrences : List Node → List Node
  | [] => []
  | m :: ms => m :: (firstOccurrences ms).filter (· != m)

theorem nodup_firstOccurrences (l : List Node) : (firstOccurrences l).Nodup := by
  induction l with
  | nil => exact List.nodup_nil
  | cons m l ih => exact List.Nodup.cons (by simp) (ih.filter _)

/-- `all_input_nodes` of a node with these positional arguments. -/
def allInputNodes (args : List Arg) : List Node :=
  firstOccurrences (args.filterMap Arg.node?)

theorem mem_firstOccurrences {m : Node} {ms : List Node} :
    m ∈ firstOccurrences ms ↔ m ∈ ms := by
  induction ms with
  | nil => rfl
  | cons a ms ih =>
    by_cases h : m = a <;> simp [firstOccurrences, ih, h]

@[simp] theorem mem_allInputNodes {m : Node} {args : List Arg} :
    m ∈ allInputNodes args ↔ Arg.node m ∈ args := by
  simp [allInputNodes, mem_firstOccurrences, Arg.node?_eq_some]

/-- `len(all_input_nodes)` counts distinct input nodes, whatever their order. -/
theorem length_allInputNodes (args : List Arg) :
    (allInputNodes args).length = (args.filterMap Arg.node?).toFinset.card := by
  rw [allInputNodes, ← List.toFinset_card_of_nodup (nodup_firstOccurrences _)]
  congr 1
  ext m
  simp [mem_firstOccurrences]

theorem mem_allInputNodes_map_node {m : Node} {f : List Node} :
    m ∈ allInputNodes (f.map .node) ↔ m ∈ f := by
  simp

/-- The element of a one-element list. -/
def soleElem : List Node → Option Node
  | [u] => some u
  | _ => Option.none

theorem soleElem_eq_some {l : List Node} {u : Node} : soleElem l = some u ↔ l = [u] := by
  match l with
  | [] => simp [soleElem]
  | [x] => simp [soleElem]
  | _ :: _ :: _ => simp [soleElem]

/-- `list(users)[0]` when `len(users) == 1`, and nothing otherwise. -/
def soleUser (s : Finset Node) : Option Node :=
  Quot.liftOn s.val soleElem fun a b h => by
    match a, b, h.length_eq with
    | [], [], _ => rfl
    | [x], [y], _ => simpa [soleElem] using List.perm_singleton.mp h
    | _ :: _ :: _, _ :: _ :: _, _ => rfl

theorem soleUser_eq_some {s : Finset Node} {u : Node} : soleUser s = some u ↔ s = {u} := by
  rw [← Finset.val_inj]
  rcases s with ⟨⟨l⟩, hl⟩
  show soleElem l = some u ↔ (l : Multiset Node) = ([u] : List Node)
  rw [Multiset.coe_eq_coe, List.perm_singleton, soleElem_eq_some]

/-- How `node.args = a` changes the users of `m`: `node` leaves the users of its old
inputs and joins those of its new ones. -/
def relink (n : Node) (old new : List Node) (m : Node) (users : Finset Node) : Finset Node :=
  if m ∈ new then insert n users else if m ∈ old then users.erase n else users

theorem relink_congr {n m : Node} {old new₁ new₂ : List Node} {u : Finset Node}
    (h : ∀ k, k ∈ new₁ ↔ k ∈ new₂) : relink n old new₁ m u = relink n old new₂ m u := by
  simp only [relink, h]

/-- The torch.fx setter `node.args = a`. -/
def Graph.setArgs (g : Graph) (n : Node) (a : List Arg) : Graph where
  id := g.id
  size := g.size
  node m :=
    { g.node m with
      args := if m = n then a else (g.node m).args
      users := relink n (allInputNodes (g.node n).args) (allInputNodes a) m (g.node m).users }

/-- The attribute write `node.users = u`. -/
def Graph.setUsers (g : Graph) (n : Node) (u : Finset Node) : Graph where
  id := g.id
  size := g.size
  node m := if m = n then { g.node n with users := u } else g.node m

section Updates

variable (g : Graph) (n m : Node) (a : List Arg) (u : Finset Node)

@[simp] theorem setArgs_size : (g.setArgs n a).size = g.size := rfl
@[simp] theorem setArgs_op : ((g.setArgs n a).node m).op = (g.node m).op := rfl
@[simp] theorem setArgs_target : ((g.setArgs n a).node m).target = (g.node m).target := rfl
@[simp] theorem setArgs_args_self : ((g.setArgs n a).node n).args = a := by
  simp [Graph.setArgs]
theorem setArgs_args_of_ne (h : m ≠ n) : ((g.setArgs n a).node m).args = (g.node m).args := by
  simp [Graph.setArgs, h]
@[simp] theorem setArgs_users : ((g.setArgs n a).node m).users =
    relink n (allInputNodes (g.node n).args) (allInputNodes a) m (g.node m).users := rfl

@[simp] theorem setUsers_size : (g.setUsers n u).size = g.size := rfl
@[simp] theorem setUsers_op : ((g.setUsers n u).node m).op = (g.node m).op := by
  by_cases h : m = n <;> simp [Graph.setUsers, h]
@[simp] theorem setUsers_target : ((g.setUsers n u).node m).target = (g.node m).target := by
  by_cases h : m = n <;> simp [Graph.setUsers, h]
@[simp] theorem setUsers_args : ((g.setUsers n u).node m).args = (g.node m).args := by
  by_cases h : m = n <;> simp [Graph.setUsers, h]
@[simp] theorem setUsers_users_self : ((g.setUsers n u).node n).users = u := by
  simp [Graph.setUsers]
theorem setUsers_users_of_ne (h : m ≠ n) : ((g.setUsers n u).node m).users = (g.node m).users := by
  simp [Graph.setUsers, h]

end Updates

/-- torch.fx's invariant: `n` uses `m` exactly when `m` is one of `n`'s inputs. -/
def Graph.Consistent (g : Graph) : Prop :=
  ∀ m n, n ∈ (g.node m).users ↔ m ∈ allInputNodes (g.node n).args

/-- A graph as torch.fx maintains it. -/
structure FxGraph where
  graph : Graph
  consistent : graph.Consistent

/-- Every input of a node comes before it in the node order, as torch.fx keeps a graph's
node list topologically sorted. -/
def Graph.InputsBefore (g : Graph) : Prop :=
  ∀ m k, m ∈ allInputNodes (g.node k).args → m < k

/-- In a consistent graph whose inputs come first, every user comes after the node. -/
theorem Graph.lt_of_mem_users {g : Graph} (hc : g.Consistent) (hg : g.InputsBefore)
    {m u : Node} (h : u ∈ (g.node m).users) : m < u :=
  hg m u ((hc m u).mp h)

/-- Past its last node a graph built by `Graph.ofList` has no arguments, so there the
inputs come first as soon as they do among its nodes. -/
theorem Graph.ofList_inputsBefore {i : Nat} {nodes : List NodeData}
    (h : ∀ k < nodes.length, ∀ m ∈ allInputNodes ((Graph.ofList i nodes).node k).args, m < k) :
    (Graph.ofList i nodes).InputsBefore := by
  intro m k hm
  by_cases hk : k < nodes.length
  · exact h k hk m hm
  · rw [show (Graph.ofList i nodes).node k = ⟨.placeholder, "", [], ∅⟩ from
      List.getD_eq_default _ _ (not_lt.mp hk)] at hm
    simp [allInputNodes, firstOccurrences] at hm

/-- `Consistent` over the first `size` nodes, every argument and user among them. -/
def Graph.ConsistentBelow (g : Graph) : Prop :=
  ∀ m < g.size, (∀ u ∈ (g.node m).users, u < g.size) ∧
    (∀ a ∈ allInputNodes (g.node m).args, a < g.size) ∧
    ∀ n < g.size, (n ∈ (g.node m).users ↔ m ∈ allInputNodes (g.node n).args)

instance (g : Graph) : Decidable g.ConsistentBelow := by
  unfold Graph.ConsistentBelow; infer_instance

/-- Past its last node a graph built by `Graph.ofList` holds placeholders without
arguments or users, so there consistency below the size is consistency. -/
theorem Graph.ofList_consistent {i : Nat} {nodes : List NodeData}
    (h : (Graph.ofList i nodes).ConsistentBelow) : (Graph.ofList i nodes).Consistent := by
  have past : ∀ k, nodes.length ≤ k →
      (Graph.ofList i nodes).node k = ⟨.placeholder, "", [], ∅⟩ :=
    fun k hk => List.getD_eq_default _ _ hk
  intro m n
  by_cases hm : m < nodes.length
  · by_cases hn : n < nodes.length
    · exact (h m hm).2.2 n hn
    · rw [past n (not_lt.mp hn)]
      simpa [allInputNodes, firstOccurrences] using fun hu => hn ((h m hm).1 n hu)
  · rw [past m (not_lt.mp hm)]
    refine ⟨fun hu => absurd hu (Finset.not_mem_empty n), fun ha => ?_⟩
    by_cases hn : n < nodes.length
    · exact absurd ((h n hn).2.1 m ha) hm
    · rw [past n (not_lt.mp hn)] at ha
      simp [allInputNodes, firstOccurrences] at ha

/-- Relinking to new inputs and back restores the users of a node whose membership
agreed with the old inputs. -/
theorem relink_relink {n m : Node} {old new : List Node} {u : Finset Node}
    (h : n ∈ u ↔ m ∈ old) : relink n new old m (relink n old new m u) = u := by
  by_cases hn : m ∈ new <;> by_cases ho : m ∈ old <;>
    simp_all [relink, Finset.insert_eq_of_mem, Finset.erase_eq_of_not_mem, Finset.insert_erase]

/-- Installing other arguments and users on `n` and then the old ones back gives the
graph back, provided the users agreed with `n`'s inputs to begin with. -/
theorem setArgs_setUsers_restore (g : Graph) (n : Node) (a : List Arg) (u : Finset Node)
    (hc : ∀ m, n ∈ (g.node m).users ↔ m ∈ allInputNodes (g.node n).args) :
    (((g.setArgs n a).setUsers n u).setArgs n (g.node n).args).setUsers n (g.node n).users
      = g := by
  ext m : 2
  · rfl
  · rfl
  by_cases h : m = n
  · subst h; ext <;> simp
  · ext1
    · simp
    · simp
    · simp [setArgs_args_of_ne _ _ _ _ h]
    · simp [setUsers_users_of_ne _ _ _ _ h, relink_relink (hc m)]

end XnnpackGemm
