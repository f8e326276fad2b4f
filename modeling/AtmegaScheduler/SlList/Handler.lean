/-
The list handler of `singly_linked_list.h`.

A handler holds a pointer to its first node; the links are in the nodes, so the state
here is that pointer and the link of every node.  The loop of `find` goes on while its
pointer is null, where a search would go on while it is not.  So `find` gives the head of a
list that is not empty, whatever it is asked for, and does not return at all when it is
asked for a node of an empty one.  `tail` is `find` of null, `append` links behind `tail`,
and `find_preceding_node` stops at the head in the same way.

The list that the calls stand for is kept beside the handler, so that the two can be
compared after every call.
-/
import AtmegaScheduler.Lib.Chain
import AtmegaScheduler.Kernel.Task

namespace AtmegaScheduler.SlList

/-- A handler, with the link of every node. -/
structure Handler (ν : Type) where
  _head : Option ν
  nextNode : ν → Option ν

namespace Handler

variable {ν : Type}

/-- `next` -/
def next (h : Handler ν) : Option ν → Option ν
  | none => none
  | some currentPos => h.nextNode currentPos

/-- `head` -/
def head (h : Handler ν) : Option ν := h._head

variable [DecidableEq ν]

/-- The loop of `find`. -/
def seekNode (h : Handler ν) (node : Option ν) : Nat → Option ν → Except Fault (Option ν)
  | 0, _ => .error .outOfFuel
  | fuel + 1, seek =>
      if seek = none then
        if seek = node then .ok seek else seekNode h node fuel (h.next seek)
      else
        .ok seek

/-- `find` -/
def find (fuel : Nat) (h : Handler ν) (node : Option ν) : Except Fault (Option ν) :=
  if h._head = node then .ok h._head else h.seekNode node fuel h._head

/-- The loop of `find_preceding_node`. -/
def seekHead (h : Handler ν) (targetNode : Option ν) :
    Nat → Option ν → Except Fault (Option ν)
  | 0, _ => .error .outOfFuel
  | fuel + 1, seek =>
      if seek = targetNode ∨ seek = none then
        match seek with
        | none => .error .nullDeref
        | some p => seekHead h targetNode fuel (h.nextNode p)
      else
        .ok seek

/-- `find_preceding_node` -/
def findPrecedingNode (fuel : Nat) (h : Handler ν) (targetNode : Option ν) :
    Except Fault (Option ν) :=
  match h._head with
  | none => .ok none
  | some head => h.seekHead targetNode fuel (some head)

/-- `tail` -/
def tail (fuel : Nat) (h : Handler ν) : Except Fault (Option ν) := h.find fuel none

/-- `p->next_node = v` -/
def setNext (h : Handler ν) (p : ν) (v : Option ν) : Handler ν :=
  { h with nextNode := Function.update h.nextNode p v }

/-- `append` -/
def append (fuel : Nat) (h : Handler ν) (newNode : Option ν) : Except Fault (Handler ν) :=
  match h._head with
  | none => .ok { h with _head := newNode }
  | some _ =>
      match h.tail fuel with
      | .error e => .error e
      | .ok none => .error .nullDeref
      | .ok (some ptr) => .ok (h.setNext ptr newNode)

/-- `remove`.  It returns 1 for the head and for a handler without nodes. -/
def remove (fuel : Nat) (h : Handler ν) (node : Option ν) :
    Except Fault (Bool × Handler ν) :=
  if node = h._head then
    .ok (true, { h with _head := none })
  else
    match h.findPrecedingNode fuel node with
    | .error e => .error e
    | .ok none => .ok (true, h)
    | .ok (some precedingNode) =>
        let unlinked := h.setNext precedingNode (h.next (h.nextNode precedingNode))
        match node with
        | none => .error .nullDeref
        | some node => .ok (false, unlinked.setNext node none)

/-! ### What each function computes -/

variable {h h' : Handler ν} {a x : ν} {fuel : Nat}

@[simp] theorem setNext_head {v : Option ν} : (h.setNext x v)._head = h._head := rfl

@[simp] theorem setNext_nextNode {v : Option ν} :
    (h.setNext x v).nextNode = Function.update h.nextNode x v := rfl

/-- Any search in a list that is not empty ends at its head. -/
theorem find_some (hhead : h._head = some a) (node : Option ν) :
    h.find (fuel + 1) node = .ok (some a) := by
  unfold find
  by_cases hnode : h._head = node
  · rw [if_pos hnode, hhead]
  · rw [if_neg hnode, hhead, seekNode, if_neg (by simp)]

/-- What a search in a list that is not empty returns, if it returns. -/
theorem find_some_eq {node r : Option ν} (hhead : h._head = some a)
    (hfind : h.find fuel node = .ok r) : r = some a := by
  unfold find at hfind
  by_cases hnode : h._head = node
  · rw [if_pos hnode, hhead] at hfind
    exact (Except.ok.inj hfind).symm
  · rw [if_neg hnode, hhead] at hfind
    cases fuel with
    | zero => exact absurd hfind (by simp [seekNode])
    | succ k =>
        rw [seekNode, if_neg (by simp)] at hfind
        exact (Except.ok.inj hfind).symm

theorem seekNode_none : ∀ fuel, h.seekNode (some x) fuel none = .error .outOfFuel := by
  intro fuel
  induction fuel with
  | zero => rfl
  | succ k ih =>
      rw [seekNode, if_pos rfl, if_neg (by simp)]
      exact ih

/-- **A search in an empty list never returns.** -/
theorem find_none (hhead : h._head = none) (fuel : Nat) :
    h.find fuel (some x) = .error .outOfFuel := by
  unfold find
  rw [hhead, if_neg (by simp)]
  exact seekNode_none fuel

/-- `tail` returns the head. -/
theorem tail_eq : h.tail (fuel + 1) = .ok h._head := by
  unfold tail
  cases hhead : h._head with
  | none =>
      unfold find
      rw [if_pos hhead, hhead]
  | some a => exact find_some hhead none

theorem append_none (hhead : h._head = none) :
    h.append fuel (some x) = .ok { h with _head := some x } := by
  unfold append
  rw [hhead]

/-- `append` links the node behind the head. -/
theorem append_some (hhead : h._head = some a) :
    h.append (fuel + 1) (some x) = .ok (h.setNext a (some x)) := by
  unfold append
  rw [tail_eq, hhead]

theorem remove_head (hhead : h._head = some x) :
    h.remove fuel (some x) = .ok (true, { h with _head := none }) := by
  unfold remove
  rw [if_pos hhead.symm]

theorem remove_none (hhead : h._head = none) : h.remove fuel (some x) = .ok (true, h) := by
  unfold remove findPrecedingNode
  rw [hhead, if_neg (by simp)]

/-- `remove` unlinks the node behind the head, and clears the link of the node it is given. -/
theorem remove_some (hhead : h._head = some a) (hne : x ≠ a) :
    h.remove (fuel + 1) (some x) =
      .ok (false, (h.setNext a (h.next (h.nextNode a))).setNext x none) := by
  have hxa : ¬ some x = some a := fun hc => hne (Option.some.inj hc)
  have hax : ¬ (some a = some x ∨ some a = none) := by
    rintro (hc | hc)
    · exact hxa hc.symm
    · exact absurd hc (by simp)
  unfold remove findPrecedingNode
  rw [hhead, if_neg hxa]
  dsimp only
  rw [seekHead, if_neg hax]

end Handler

/-! ### The list the calls stand for -/

/-- The calls that change the list. -/
inductive Call (ν : Type)
  | append (x : ν)
  | remove (x : ν)

variable {ν : Type} [DecidableEq ν]

/-- What a call does to the list. -/
def Call.onList : Call ν → List ν → List ν
  | .append x, l => l ++ [x]
  | .remove x, l => l.erase x

/-- The appended and not removed nodes after some calls, the latest call first. -/
def listOf : List (Call ν) → List ν
  | [] => []
  | c :: cs => c.onList (listOf cs)

/-- A node is appended if it is not in the list and its link is null, and removed if it is
in the list. -/
def Call.Allowed (h : Handler ν) (l : List ν) : Call ν → Prop
  | .append x => x ∉ l ∧ h.nextNode x = none
  | .remove x => x ∈ l

/-- The call made of the handler. -/
def Handler.call (fuel : Nat) (h : Handler ν) : Call ν → Except Fault (Handler ν)
  | .append x => h.append fuel (some x)
  | .remove x => (h.remove fuel (some x)).map Prod.snd

/-- A sequence of calls that takes the empty handler `h₀` to another one, the latest call
first. -/
inductive Run (h₀ : Handler ν) : List (Call ν) → Handler ν → Prop
  | start : h₀._head = none → Run h₀ [] h₀
  | call {cs h h' c} (fuel : Nat) : Run h₀ cs h → c.Allowed h (listOf cs) →
      h.call fuel c = .ok h' → Run h₀ (c :: cs) h'

/-! ### What the handler is to be -/

namespace Handler

/-- The walk from the head by `next` ends, and visits exactly the nodes of the list. -/
def Walks (h : Handler ν) (l : List ν) : Prop := Chain (fun x => h.next (some x)) h.head l

/-- `find` returns a node that is in the list, and null for any other. -/
structure Finds (h : Handler ν) (l : List ν) : Prop where
  member : ∀ x ∈ l, ∃ fuel, h.find fuel (some x) = .ok (some x)
  other : ∀ x, x ∉ l → ∃ fuel, h.find fuel (some x) = .ok none

/-- `tail` returns the last node of a list that is not empty. -/
def TailsRight (h : Handler ν) (l : List ν) : Prop :=
  l ≠ [] → ∃ fuel, h.tail fuel = .ok l.getLast?

/-- `remove` of a node returns 0, takes exactly that node off and clears its link. -/
def RemovesRight (h : Handler ν) (l : List ν) (x : ν) : Prop :=
  ∃ fuel h', h.remove fuel (some x) = .ok (false, h') ∧ h'.Walks (l.erase x) ∧
    h'.nextNode x = none

/-- The handler is the list. -/
structure Implements (h : Handler ν) (l : List ν) : Prop where
  walks : h.Walks l
  finds : h.Finds l
  tailsRight : h.TailsRight l
  removesRight : ∀ x ∈ l, l.head? ≠ some x → h.RemovesRight l x

end Handler

/-- The lists that a call is right for. -/
def Call.Fits (l : List ν) : Call ν → Prop
  | .append _ => l.length ≤ 1
  | .remove x => l = [x] ∨ l[1]? = some x

namespace Handler

variable {h h' : Handler ν} {l rest : List ν} {a x : ν} {fuel : Nat} {b : Bool}

omit [DecidableEq ν] in
theorem Walks.head_eq (hw : h.Walks (a :: rest)) : h._head = some a := hw.1

omit [DecidableEq ν] in
theorem Walks.link (hw : h.Walks (a :: rest)) : h.nextNode a = rest.head? := Chain.head_eq hw.2

omit [DecidableEq ν] in
theorem walks_of_head_none (hhead : h._head = none) : h.Walks l ↔ l = [] := by
  unfold Walks head
  rw [hhead]
  constructor
  · intro hw
    cases l with
    | nil => rfl
    | cons a rest => exact absurd hw.1 (by simp)
  · intro hnil
    rw [hnil]
    rfl

omit [DecidableEq ν] in
theorem Walks.head_notMem (hw : h.Walks (a :: rest)) : a ∉ rest :=
  (List.nodup_cons.mp (Chain.nodup hw)).1

/-! ### One call -/

theorem append_some_eq (hhead : h._head = some a) (hcall : h.append fuel (some x) = .ok h') :
    h' = h.setNext a (some x) := by
  cases fuel with
  | zero => exact absurd hcall (by simp [append, tail, find, seekNode, hhead])
  | succ k =>
      rw [append_some hhead] at hcall
      exact (Except.ok.inj hcall).symm

theorem remove_some_eq (hhead : h._head = some a) (hne : x ≠ a)
    (hcall : h.remove fuel (some x) = .ok (b, h')) :
    b = false ∧ h' = (h.setNext a (h.next (h.nextNode a))).setNext x none := by
  cases fuel with
  | zero => exact absurd hcall (by simp [remove, findPrecedingNode, seekHead, hhead, hne])
  | succ k =>
      rw [remove_some hhead hne] at hcall
      have hpair := Prod.mk.inj (Except.ok.inj hcall)
      exact ⟨hpair.1.symm, hpair.2.symm⟩

/-- **`append` appends to lists of at most one node**, and to no other. -/
theorem append_walks_iff (hw : h.Walks l) (hx : x ∉ l) (hnull : h.nextNode x = none)
    (hcall : h.append fuel (some x) = .ok h') : h'.Walks (l ++ [x]) ↔ l.length ≤ 1 := by
  cases l with
  | nil =>
      rw [append_none hw] at hcall
      rw [← Except.ok.inj hcall]
      constructor
      · intro _
        exact Nat.zero_le 1
      · intro _
        exact ⟨rfl, hnull⟩
  | cons a rest =>
      rw [append_some_eq hw.head_eq hcall]
      constructor
      · intro hw'
        have hlink : Function.update h.nextNode a (some x) a = (rest ++ [x]).head? := hw'.link
        rw [Function.update_self] at hlink
        cases rest with
        | nil => exact Nat.le_refl 1
        | cons y rest' =>
            -- The link of the head would still be its second node.
            have hxy : x = y := Option.some.inj hlink
            exact absurd (by simp [hxy]) hx
      · intro hlen
        have hrest : rest = [] := List.length_eq_zero_iff.mp (by simpa using hlen)
        rw [hrest] at hw hx ⊢
        have hchain : Chain h.nextNode h._head ([] ++ [a]) := hw
        exact hchain.snoc hx hnull

/-- Removing the head empties the handler. -/
theorem remove_head_walks_iff (hw : h.Walks (x :: rest))
    (hcall : h.remove fuel (some x) = .ok (b, h')) :
    h'.Walks ((x :: rest).erase x) ↔ (Call.remove x).Fits (x :: rest) := by
  have hx : x ∉ rest := hw.head_notMem
  have hhead : h'._head = none := by
    rw [remove_head hw.head_eq] at hcall
    rw [← (Prod.mk.inj (Except.ok.inj hcall)).2]
  rw [List.erase_cons_head, walks_of_head_none hhead]
  unfold Call.Fits
  constructor
  · intro hrest
    rw [hrest]
    exact Or.inl rfl
  · rintro (hone | htwo)
    · exact (List.cons.inj hone).2
    · have hfirst : rest[0]? = some x := htwo
      exact absurd (List.mem_of_getElem? hfirst) hx

/-- Removing a node behind the head takes off the second node, whichever it was. -/
theorem remove_behind_walks_iff {y : ν} (hw : h.Walks (a :: y :: rest)) (hxa : x ≠ a)
    (hcall : h.remove fuel (some x) = .ok (b, h')) :
    h'.Walks ((a :: y :: rest).erase x) ↔ y = x := by
  have hnodup : (a :: y :: rest).Nodup := Chain.nodup hw
  have hy : y ∉ rest := (List.nodup_cons.mp (List.nodup_cons.mp hnodup).2).1
  have hax : ¬ (a == x) = true := fun hc => hxa (eq_of_beq hc).symm
  rw [(remove_some_eq hw.head_eq hxa hcall).2, List.erase_cons_tail hax]
  constructor
  · intro hw'
    by_cases hyx : (y == x) = true
    · exact eq_of_beq hyx
    · -- The head now links to the third node, and the list still has the second.
      rw [List.erase_cons_tail hyx] at hw'
      have hlink := hw'.link
      rw [setNext_nextNode, setNext_nextNode, Function.update_of_ne (Ne.symm hxa),
        Function.update_self, hw.link] at hlink
      have hthird : rest.head? = some y := (Chain.head_eq hw.2.2).symm.trans hlink
      exact absurd (List.mem_of_head? hthird) hy
  · intro hyx
    subst hyx
    have hchain : Chain h.nextNode h._head ([] ++ a :: y :: rest) := hw
    have hunlink : Chain (Function.update h.nextNode a (h.nextNode y)) h._head (a :: rest) :=
      hchain.unlink
    rw [List.erase_cons_head, hw.link]
    refine Seg.update hunlink ?_
    simp [hxa, hy]

/-- **`remove` takes off the second node or the only one**, and no other. -/
theorem remove_walks_iff (hw : h.Walks l) (hx : x ∈ l)
    (hcall : h.remove fuel (some x) = .ok (b, h')) :
    h'.Walks (l.erase x) ↔ (Call.remove x).Fits l := by
  cases l with
  | nil => exact absurd hx List.not_mem_nil
  | cons a rest =>
      by_cases hxa : x = a
      · subst hxa
        exact remove_head_walks_iff hw hcall
      · cases rest with
        | nil => exact absurd (List.mem_singleton.mp hx) hxa
        | cons y rest' =>
            rw [remove_behind_walks_iff hw hxa hcall]
            unfold Call.Fits
            constructor
            · intro hyx
              rw [hyx]
              exact Or.inr rfl
            · rintro (hone | htwo)
              · exact absurd (List.cons.inj hone).2 (by simp)
              · exact Option.some.inj htwo

/-- One call keeps the walk right exactly if the call is right for the list. -/
theorem call_walks_iff {c : Call ν} (hw : h.Walks l) (hc : c.Allowed h l)
    (hcall : h.call fuel c = .ok h') : h'.Walks (c.onList l) ↔ c.Fits l := by
  cases c with
  | append x => exact append_walks_iff hw hc.1 hc.2 hcall
  | remove x =>
      simp only [call] at hcall
      cases hremove : h.remove fuel (some x) with
      | error e =>
          rw [hremove] at hcall
          exact absurd hcall (by simp [Except.map])
      | ok r =>
          obtain ⟨b, h₁⟩ := r
          rw [hremove] at hcall
          rw [← Except.ok.inj hcall]
          exact remove_walks_iff hw hc hremove

/-- Every call on a node returns. -/
theorem call_returns (h : Handler ν) (c : Call ν) (fuel : Nat) :
    ∃ h', h.call (fuel + 1) c = .ok h' := by
  cases c with
  | append x =>
      simp only [call]
      cases hhead : h._head with
      | none => exact ⟨_, append_none hhead⟩
      | some a => exact ⟨_, append_some hhead⟩
  | remove x =>
      simp only [call]
      cases hhead : h._head with
      | none =>
          rw [remove_none hhead]
          exact ⟨_, rfl⟩
      | some a =>
          by_cases hxa : x = a
          · subst hxa
            rw [remove_head hhead]
            exact ⟨_, rfl⟩
          · rw [remove_some hhead hxa]
            exact ⟨_, rfl⟩

/-! ### The answers in one state -/

/-- **`find` is right only if the one node there is is the list.** -/
theorem finds_iff (hw : h.Walks l) : h.Finds l ↔ ∀ y, l = [y] := by
  constructor
  · intro hf y
    cases l with
    | nil =>
        obtain ⟨fuel, hfind⟩ := hf.other y List.not_mem_nil
        have hhead : h._head = none := hw
        rw [find_none hhead fuel] at hfind
        exact absurd hfind (by simp)
    | cons a rest =>
        have hall : ∀ z : ν, z = a := by
          intro z
          by_cases hz : z ∈ a :: rest
          · obtain ⟨fuel, hfind⟩ := hf.member z hz
            exact Option.some.inj (find_some_eq hw.head_eq hfind)
          · obtain ⟨fuel, hfind⟩ := hf.other z hz
            exact absurd (find_some_eq hw.head_eq hfind) (by simp)
        have hrest : rest = [] := by
          refine List.eq_nil_iff_forall_not_mem.mpr fun z hz => ?_
          rw [hall z] at hz
          exact hw.head_notMem hz
        rw [hrest, hall y]
  · intro hone
    refine ⟨fun x hx => ⟨1, ?_⟩, fun x hx => ?_⟩
    · rw [hone x] at hw
      exact find_some hw.head_eq (some x)
    · rw [hone x] at hx
      exact absurd (List.mem_singleton_self x) hx

/-- **`tail` is right for lists of at most one node.** -/
theorem tailsRight_iff (hw : h.Walks l) : h.TailsRight l ↔ l.length ≤ 1 := by
  cases l with
  | nil =>
      constructor
      · intro _
        exact Nat.zero_le 1
      · intro _ hne
        exact absurd rfl hne
  | cons a rest =>
      constructor
      · intro ht
        obtain ⟨fuel, htail⟩ := ht (by simp)
        have hlast : (a :: rest).getLast? = some a := find_some_eq hw.head_eq htail
        cases rest with
        | nil => exact Nat.le_refl 1
        | cons y rest' =>
            rw [List.getLast?_cons_cons] at hlast
            exact absurd (List.mem_of_getLast? hlast) hw.head_notMem
      · intro hlen _
        have hrest : rest = [] := List.length_eq_zero_iff.mp (by simpa using hlen)
        refine ⟨1, ?_⟩
        rw [tail_eq, hw.head_eq, hrest]
        rfl

/-- `remove` of a node other than the head is right exactly for the second node. -/
theorem removesRight_iff (hw : h.Walks l) (hx : x ∈ l) (hhead : l.head? ≠ some x) :
    h.RemovesRight l x ↔ l[1]? = some x := by
  constructor
  · intro hr
    obtain ⟨fuel, h', hcall, hw', -⟩ := hr
    rcases (remove_walks_iff hw hx hcall).mp hw' with hone | htwo
    · rw [hone] at hhead
      exact absurd rfl hhead
    · exact htwo
  · intro htwo
    cases l with
    | nil => exact absurd hx List.not_mem_nil
    | cons a rest =>
        have hxa : x ≠ a := by
          intro hc
          rw [hc] at hhead
          exact hhead rfl
        have hcall : h.remove 1 (some x) =
            .ok (false, (h.setNext a (h.next (h.nextNode a))).setNext x none) :=
          remove_some hw.head_eq hxa
        refine ⟨1, _, hcall, (remove_walks_iff hw hx hcall).mpr (Or.inr htwo), ?_⟩
        rw [setNext_nextNode, Function.update_self]

/-- **`remove` is right behind the head of lists of at most two nodes.** -/
theorem removesRight_all_iff (hw : h.Walks l) :
    (∀ x ∈ l, l.head? ≠ some x → h.RemovesRight l x) ↔ l.length ≤ 2 := by
  have hnodup : l.Nodup := Chain.nodup hw
  constructor
  · intro hall
    match l, hw, hnodup, hall with
    | [], _, _, _ => exact Nat.zero_le 2
    | [_], _, _, _ => exact Nat.le_succ 1
    | [_, _], _, _, _ => exact Nat.le_refl 2
    | a :: y :: z :: rest, hw, hnodup, hall =>
        have hz : z ∈ a :: y :: z :: rest := by simp
        have hza : (a :: y :: z :: rest).head? ≠ some z := by
          intro hc
          have haz : a = z := Option.some.inj hc
          rw [haz] at hnodup
          simp at hnodup
        have hyz : y = z := Option.some.inj ((removesRight_iff hw hz hza).mp (hall z hz hza))
        rw [hyz] at hnodup
        simp at hnodup
  · intro hlen x hx hhead
    refine (removesRight_iff hw hx hhead).mpr ?_
    match l, hx, hhead, hlen with
    | [a], hx, hhead, _ =>
        rw [List.mem_singleton.mp hx] at hhead
        exact absurd rfl hhead
    | [a, y], hx, hhead, _ =>
        rcases List.mem_cons.mp hx with hxa | hxy
        · rw [hxa] at hhead
          exact absurd rfl hhead
        · rw [List.mem_singleton.mp hxy]
          rfl
    | a :: y :: z :: rest, _, _, hlen => exact absurd hlen (by simp)

/-- The four parts together. -/
theorem implements_iff : h.Implements l ↔ h.Walks l ∧ ∀ y, l = [y] := by
  constructor
  · intro hi
    exact ⟨hi.walks, (finds_iff hi.walks).mp hi.finds⟩
  · rintro ⟨hw, hone⟩
    have hlen : l.length ≤ 1 := by
      cases l with
      | nil => exact Nat.zero_le 1
      | cons a rest =>
          rw [hone a]
          exact Nat.le_refl 1
    exact ⟨hw, (finds_iff hw).mpr hone, (tailsRight_iff hw).mpr hlen,
      (removesRight_all_iff hw).mpr (Nat.le_succ_of_le hlen)⟩

end Handler

/-! ### A whole run -/

variable {h₀ h : Handler ν} {cs : List (Call ν)}

/-- **No run is stuck**: whatever call is allowed next returns. -/
theorem Run.exists_call {c : Call ν} (hrun : Run h₀ cs h) (hc : c.Allowed h (listOf cs)) :
    ∃ h', Run h₀ (c :: cs) h' := by
  obtain ⟨h', hcall⟩ := h.call_returns c 0
  exact ⟨h', .call 1 hrun hc hcall⟩

/-- **The walk is right all along a run if and only if every call is right for the list it
meets.** -/
theorem walks_along_iff (hrun : Run h₀ cs h) :
    (∀ cs₁ h₁, cs₁ <:+ cs → Run h₀ cs₁ h₁ → h₁.Walks (listOf cs₁)) ↔
      ∀ c cs₁, c :: cs₁ <:+ cs → c.Fits (listOf cs₁) := by
  induction hrun with
  | start hempty =>
      constructor
      · intro _ c cs₁ hsub
        exact absurd (List.suffix_nil.mp hsub) (by simp)
      · intro _ cs₁ h₁ hsub hrun₁
        rw [List.suffix_nil.mp hsub] at hrun₁ ⊢
        cases hrun₁
        exact (Handler.walks_of_head_none hempty).mpr rfl
  | @call cs h h' c fuel hrun hc hcall ih =>
      constructor
      · intro hwalks c₁ cs₁ hsub
        have hbefore := ih.mp fun cs₂ h₂ hsub₂ =>
          hwalks cs₂ h₂ (hsub₂.trans (List.suffix_cons c cs))
        rcases List.suffix_cons_iff.mp hsub with heq | hsub'
        · obtain ⟨rfl, rfl⟩ := List.cons.inj heq
          have hw := hwalks cs₁ h (List.suffix_cons c₁ cs₁) hrun
          have hw' := hwalks (c₁ :: cs₁) h' List.suffix_rfl (.call fuel hrun hc hcall)
          exact (Handler.call_walks_iff hw hc hcall).mp hw'
        · exact hbefore c₁ cs₁ hsub'
      · intro hfits cs₁ h₁ hsub hrun₁
        have hbefore := ih.mpr fun c₂ cs₂ hsub₂ =>
          hfits c₂ cs₂ (hsub₂.trans (List.suffix_cons c cs))
        rcases List.suffix_cons_iff.mp hsub with heq | hsub'
        · subst heq
          cases hrun₁ with
          | @call _ h₂ _ _ fuel₂ hrun₂ hc₂ hcall₂ =>
              have hw := hbefore cs h₂ List.suffix_rfl hrun₂
              exact (Handler.call_walks_iff hw hc₂ hcall₂).mpr (hfits c cs List.suffix_rfl)
        · exact hbefore cs₁ h₁ hsub' hrun₁

/-- With one node there is nothing to go wrong. -/
theorem walks_of_one (hone : ∀ x y : ν, x = y) (hrun : Run h₀ cs h) : h.Walks (listOf cs) := by
  induction hrun with
  | start hempty => exact (Handler.walks_of_head_none hempty).mpr rfl
  | @call cs h h' c fuel hrun hc hcall ih =>
      refine (Handler.call_walks_iff ih hc hcall).mpr ?_
      have hnodup : (listOf cs).Nodup := Chain.nodup ih
      cases c with
      | append x =>
          have hnil : listOf cs = [] := by
            refine List.eq_nil_iff_forall_not_mem.mpr fun y hy => ?_
            rw [hone y x] at hy
            exact hc.1 hy
          unfold Call.Fits
          rw [hnil]
          exact Nat.zero_le 1
      | remove x =>
          obtain ⟨rest, hrest⟩ : ∃ rest, listOf cs = x :: rest := by
            cases hl : listOf cs with
            | nil =>
                have hx : x ∈ listOf cs := hc
                rw [hl] at hx
                exact absurd hx List.not_mem_nil
            | cons a rest =>
                rw [hone a x]
                exact ⟨rest, rfl⟩
          rw [hrest] at hnodup ⊢
          have hnil : rest = [] := by
            refine List.eq_nil_iff_forall_not_mem.mpr fun y hy => ?_
            rw [hone y x] at hy
            exact (List.nodup_cons.mp hnodup).1 hy
          rw [hnil]
          exact Or.inl rfl

/--
**The handler is a list only where there is no second node.**  After any allowed calls all
that is asked of it holds if and only if every node there is is the one node of the list.
The walk alone is right all along if and only if every `append` meets a list of at most one
node and every `remove` takes the second node or the only one; where it is right, `tail` is
right for at most one node and `remove` for at most two.
-/
theorem handler_implements_iff (hrun : Run h₀ cs h) :
    (h.Implements (listOf cs) ↔ ∀ y, listOf cs = [y]) ∧
      ((∀ cs₁ h₁, cs₁ <:+ cs → Run h₀ cs₁ h₁ → h₁.Walks (listOf cs₁)) ↔
        ∀ c cs₁, c :: cs₁ <:+ cs → c.Fits (listOf cs₁)) ∧
      (h.Walks (listOf cs) →
        (h.TailsRight (listOf cs) ↔ (listOf cs).length ≤ 1) ∧
        ((∀ x ∈ listOf cs, (listOf cs).head? ≠ some x → h.RemovesRight (listOf cs) x) ↔
          (listOf cs).length ≤ 2)) := by
  refine ⟨?_, walks_along_iff hrun, fun hw =>
    ⟨Handler.tailsRight_iff hw, Handler.removesRight_all_iff hw⟩⟩
  rw [Handler.implements_iff]
  constructor
  · intro hi
    exact hi.2
  · intro hlist
    have hone : ∀ x y : ν, x = y := by
      intro x y
      exact (List.cons.inj ((hlist x).symm.trans (hlist y))).1
    exact ⟨walks_of_one hone hrun, hlist⟩

/-- An empty handler, and three nodes with null links. -/
def fresh : Handler (Fin 3) where
  _head := none
  nextNode := fun _ => none

/-- Nodes 0 and 1 are appended. -/
def twoNodes : Handler (Fin 3) where
  _head := some 0
  nextNode := Function.update (fun _ => none) 0 (some 1)

theorem run_twoNodes : Run fresh [.append 1, .append 0] twoNodes := by
  refine .call 1 (.call 1 (.start rfl) ⟨by decide, rfl⟩ rfl) ⟨by decide, rfl⟩ ?_
  rfl

theorem handler_two : twoNodes.Walks [0, 1] ∧ ¬ twoNodes.Implements [0, 1] := by
  obtain ⟨hall, hwalks, -⟩ := handler_implements_iff run_twoNodes
  refine ⟨hwalks.mpr (fun c cs₁ hsub => ?_) _ _ List.suffix_rfl run_twoNodes, fun hi => ?_⟩
  · rcases List.suffix_cons_iff.mp hsub with heq | hsub'
    · obtain ⟨rfl, rfl⟩ := List.cons.inj heq
      exact Nat.le_refl 1
    · rcases List.suffix_cons_iff.mp hsub' with heq | hsub''
      · obtain ⟨rfl, rfl⟩ := List.cons.inj heq
        exact Nat.zero_le 1
      · exact absurd (List.suffix_nil.mp hsub'') (by simp)
  · exact absurd (hall.mp hi 2) (by decide)

/-- Three nodes are appended: the second is lost, `tail` is the first, a search for the third
finds the first, and removing the second takes off the third.  In the empty list the search
for a node never returns. -/
theorem handler_loses : ∃ h, Run fresh [.append 2, .append 1, .append 0] h ∧
    h.Walks [0, 2] ∧ ¬ h.Implements [0, 1, 2] ∧ h.tail 1 = .ok (some 0) ∧
    h.find 1 (some 2) = .ok (some 0) ∧
    (∃ h', h.remove 1 (some 1) = .ok (false, h') ∧ h'.Walks [0]) ∧
    ∀ fuel, fresh.find fuel (some 0) = .error .outOfFuel := by
  have hwalks : (twoNodes.setNext 0 (some 2)).Walks [0, 2] := ⟨rfl, rfl, rfl⟩
  refine ⟨twoNodes.setNext 0 (some 2), .call 1 run_twoNodes ⟨by decide, rfl⟩ rfl, hwalks,
    fun hi => ?_, rfl, rfl, ⟨_, rfl, rfl, rfl⟩, Handler.find_none rfl⟩
  exact absurd (Chain.unique hwalks hi.walks) (by decide)

end AtmegaScheduler.SlList
