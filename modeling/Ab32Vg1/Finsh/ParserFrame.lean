import Ab32Vg1.Finsh.Parser
import Ab32Vg1.Finsh.TokenRun

/-! What holds of every parser function by what its steps do: relations between the parser before and
after it, the nodes of its tree, and the same result for every larger bound. -/

namespace Ab32Vg1.Finsh

open ProofKit

/-- Relations that every step of the parser respects. -/
structure Respected (R : Parser → Parser → Prop) : Prop where
  refl p : R p p
  trans {p p1 p2} : R p p1 → R p1 p2 → R p p2
  token {p token p'} : next_token p = some (token, p') → R p p'
  replay p : R p p.replay
  error {e} p : e ≠ FINSH_ERROR_OK → R p (p.setError e)
  node {p} : p.nodes < FINSH_NODE_MAX → R p { p with nodes := p.nodes + 1 }
  string p : R p { p with strings := p.strings + 1 }
  vars p v : R p { p with vars := v }

/-- A function that respects a relation and takes the nodes of its result from the pool. -/
def Keeps (R : Parser → Parser → Prop) (f : Proc) : Prop :=
  ∀ p r p', f p = some (r, p') → R p p' ∧ p.nodes + r.size ≤ p'.nodes

theorem next_token_nodes {p p' : Parser} {token : TokenType} (h : next_token p = some (token, p')) :
    p'.nodes = p.nodes := by
  obtain ⟨⟨type, t⟩, -, h⟩ := Option.map_eq_some_iff.mp h
  cases h
  rfl

namespace Node

theorem setSibling_size (n s : Node) : (n.setSibling s).size ≤ n.size + s.size := by
  cases n with
  | null => exact Nat.zero_le _
  | node t d a c s' =>
    simp only [setSibling, size]
    omega

/-- A node without its sibling, and the sibling it gets. -/
theorem setSibling_size_add (n s : Node) :
    (n.setSibling s).size ≤ (n.setSibling null).size + s.size := by
  cases n with
  | null => exact Nat.zero_le _
  | node t d a c s' =>
    simp only [setSibling, size]
    omega

theorem setSibling_size_self (n : Node) : (n.setSibling null).size + n.sibling.size ≤ n.size := by
  cases n with
  | null => exact Nat.le_refl _
  | node t d a c s =>
    simp only [setSibling, sibling, size]
    omega

theorem setDataType_size (n : Node) (d : Nat) : (n.setDataType d).size = n.size := by
  cases n <;> rfl

/-- The nodes of linked trees. -/
theorem link_size (nodes : List Node) (rest : Node) :
    (link nodes rest).size ≤ (nodes.map size).sum + rest.size := by
  induction nodes with
  | nil => simp [link]
  | cons n nodes ih =>
    have h := setSibling_size n (link nodes rest)
    simp only [List.map_cons, List.sum_cons]
    show (n.setSibling (link nodes rest)).size ≤ _
    omega

/-- The nodes of linked trees, each with the sibling that the link gives it. -/
theorem link_size_add (nodes : List Node) (rest : Node) :
    (link nodes rest).size ≤ (nodes.map fun n => (n.setSibling null).size).sum + rest.size := by
  induction nodes with
  | nil => simp [link]
  | cons n nodes ih =>
    have h := setSibling_size_add n (link nodes rest)
    simp only [List.map_cons, List.sum_cons]
    show (n.setSibling (link nodes rest)).size ≤ _
    omega

end Node

section Frame

variable {R : Parser → Parser → Prop} (hR : Respected R) {symbols : Symbols}
  {p p' : Parser} {r : Node} {b : Nat}

include hR

/-! ### Nodes -/

theorem check_token_keeps (token type : TokenType) (p : Parser) :
    R p (check_token token type p) ∧ (check_token token type p).nodes = p.nodes := by
  rw [check_token]
  split
  · exact ⟨hR.trans (hR.error p (by decide)) (hR.replay _), rfl⟩
  · exact ⟨hR.refl p, rfl⟩

theorem match_token_keeps {type : TokenType} (h : match_token type p = some p') :
    R p p' ∧ p'.nodes = p.nodes := by
  obtain ⟨⟨token, p1⟩, ht, rfl⟩ := Option.map_eq_some_iff.mp h
  have hc := check_token_keeps hR token type p1
  exact ⟨hR.trans (hR.token ht) hc.1, hc.2.trans (next_token_nodes ht)⟩

theorem allocate_keeps {type : NodeType} (h : finsh_node_allocate type p = (r, p')) :
    R p p' ∧ p.nodes + r.size ≤ p'.nodes := by
  rw [finsh_node_allocate] at h
  split at h
  · next hlt =>
    cases h
    exact ⟨hR.node hlt, Nat.le_refl _⟩
  · cases h
    exact ⟨hR.refl p, Nat.le_refl _⟩

theorem new_value_keeps {type : NodeType} (h : finsh_node_new_value type p = (r, p')) :
    R p p' ∧ p.nodes + r.size ≤ p'.nodes := by
  rw [finsh_node_new_value] at h
  rcases ha : finsh_node_allocate type p with ⟨node, p1⟩
  have hk := allocate_keeps hR ha
  rw [ha] at h
  cases node with
  | null =>
    cases h
    exact ⟨hR.trans hk.1 (hR.error p1 (by decide)), hk.2⟩
  | node =>
    cases h
    exact hk

theorem new_id_keeps {id : List UInt8} (h : finsh_node_new_id symbols id p = (r, p')) :
    R p p' ∧ p.nodes + r.size ≤ p'.nodes := by
  rw [finsh_node_new_id] at h
  split at h
  · exact new_value_keeps hR h
  · cases h
    exact ⟨hR.error p (by decide), Nat.le_refl _⟩

theorem new_string_keeps (h : finsh_node_new_string symbols p = some (r, p')) :
    R p p' ∧ p.nodes + r.size ≤ p'.nodes := by
  rw [finsh_node_new_string] at h
  split at h
  · cases h
    exact ⟨hR.error p (by decide), Nat.le_refl _⟩
  · next hlt =>
    obtain ⟨ptr, -, h⟩ := Option.map_eq_some_iff.mp h
    cases h
    exact ⟨hR.trans (hR.node (Nat.not_le.mp hlt)) (hR.string _), Nat.le_refl _⟩

theorem make_sys_node_keeps {type : NodeType} {node1 node2 : Node}
    (h : make_sys_node type node1 node2 p = (r, p')) :
    R p p' ∧ (b + node1.size + node2.size ≤ p.nodes → b + r.size ≤ p'.nodes) := by
  rw [make_sys_node.eq_def] at h
  rcases ha : finsh_node_allocate type p with ⟨node, p1⟩
  have hk := allocate_keeps hR ha
  rw [ha] at h
  cases node1 with
  | null =>
    cases h
    exact ⟨hR.trans hk.1 (hR.error p1 (by decide)), fun hb => by
      have h2 : p.nodes + r.size ≤ p1.nodes := hk.2
      show b + r.size ≤ p1.nodes
      omega⟩
  | node t d a c s =>
    cases node with
    | null =>
      cases h
      exact ⟨hR.trans hk.1 (hR.error p1 (by decide)), fun hb => by
        have h2 : p.nodes + 0 ≤ p1.nodes := hk.2
        show b + 0 ≤ p1.nodes
        omega⟩
    | node t' d' a' c' s' =>
      cases h
      refine ⟨hk.1, fun hb => ?_⟩
      have h2 := hk.2
      simp only [Node.size] at hb h2 ⊢
      omega

/-! ### Expressions -/

theorem proc_pointer_keeps {type type' : FinshType} (h : proc_pointer type p = some (type', p')) :
    R p p' ∧ p'.nodes = p.nodes := by
  obtain ⟨⟨token, p1⟩, ht, h⟩ := Option.bind_eq_some_iff.mp h
  have hn := next_token_nodes ht
  dsimp only at h
  split at h
  · cases h
    exact ⟨hR.token ht, hn⟩
  · cases h
    exact ⟨hR.trans (hR.token ht) (hR.replay p1), hn⟩

theorem proc_type_keeps {type : FinshType} (h : proc_type p = some (type, p')) :
    R p p' ∧ p'.nodes = p.nodes := by
  obtain ⟨⟨token, p1⟩, ht, h⟩ := Option.bind_eq_some_iff.mp h
  have hn := next_token_nodes ht
  have h1 := hR.token ht
  have herr {e : Nat} (he : e ≠ FINSH_ERROR_OK) (q : Parser) : R q (q.replay.setError e) :=
    hR.trans (hR.replay q) (hR.error _ he)
  dsimp only at h
  split at h
  · obtain ⟨h2, hn2⟩ := proc_pointer_keeps hR h
    exact ⟨hR.trans h1 h2, hn2.trans hn⟩
  · split at h
    · obtain ⟨⟨token2, p2⟩, ht2, h⟩ := Option.bind_eq_some_iff.mp h
      have hn2 := (next_token_nodes ht2).trans hn
      have h2 := hR.trans h1 (hR.token ht2)
      dsimp only at h
      split at h
      · obtain ⟨h3, hn3⟩ := proc_pointer_keeps hR h
        exact ⟨hR.trans h2 h3, hn3.trans hn2⟩
      · cases h
        exact ⟨hR.trans h2 (herr (by decide) p2), hn2⟩
      · obtain ⟨h3, hn3⟩ := proc_pointer_keeps hR h
        exact ⟨hR.trans (hR.trans h2 (herr (by decide) p2)) h3, hn3.trans hn2⟩
    · cases h
      exact ⟨hR.trans h1 (herr (by decide) p1), hn⟩

theorem proc_identifier_keeps {id : List UInt8} (h : proc_identifier p = some (id, p')) :
    R p p' ∧ p'.nodes = p.nodes := by
  obtain ⟨p1, hm, h⟩ := Option.bind_eq_some_iff.mp h
  cases h
  exact match_token_keeps hR hm

variable {operand assign cast : Proc}

theorem binaryLoop_keeps (ho : Keeps R operand) {op : TokenType → Option BinOp} {n : Nat} {left : Node}
    (h : binaryLoop operand op n left p = some (r, p')) :
    R p p' ∧ (b + left.size ≤ p.nodes → b + r.size ≤ p'.nodes) := by
  induction n generalizing left p with
  | zero => cases h
  | succ n ih =>
    obtain ⟨⟨token, p1⟩, ht, h⟩ := Option.bind_eq_some_iff.mp h
    have hn := next_token_nodes ht
    have h1 := hR.token ht
    dsimp only at h
    split at h
    · cases h
      exact ⟨hR.trans h1 (hR.replay p1), fun hb => hb.trans_eq hn.symm⟩
    · next op' _ =>
      obtain ⟨⟨right, p2⟩, hr, h⟩ := Option.bind_eq_some_iff.mp h
      obtain ⟨h2, hs2⟩ := ho _ _ _ hr
      cases right with
      | null =>
        obtain ⟨h3, hs3⟩ := ih h
        refine ⟨hR.trans (hR.trans h1 h2) (hR.trans (hR.error p2 (by decide)) h3), fun hb => hs3 ?_⟩
        show b + left.size ≤ p2.nodes
        omega
      | node t d a c s =>
        rcases hm : make_sys_node (.SYS_BIN op') left (.node t d a c s) p2 with ⟨node, p3⟩
        have h3 := make_sys_node_keeps (b := b) hR hm
        simp only [hm] at h
        obtain ⟨h4, hs4⟩ := ih h
        exact ⟨hR.trans (hR.trans h1 h2) (hR.trans h3.1 h4), fun hb => hs4 (h3.2 (by omega))⟩

theorem proc_binary_expr_keeps (ho : Keeps R operand) (op : TokenType → Option BinOp) (n : Nat) :
    Keeps R (proc_binary_expr operand op n) := by
  intro p r p' h
  obtain ⟨⟨left, p1⟩, hl, h⟩ := Option.bind_eq_some_iff.mp h
  obtain ⟨h1, hs1⟩ := ho _ _ _ hl
  obtain ⟨h2, hs2⟩ := binaryLoop_keeps hR ho h
  exact ⟨hR.trans h1 h2, hs2 hs1⟩

theorem proc_inclusive_or_expr_keeps (hc : Keeps R cast) (n : Nat) :
    Keeps R (proc_inclusive_or_expr cast n) :=
  proc_binary_expr_keeps hR (proc_binary_expr_keeps hR (proc_binary_expr_keeps hR
    (proc_binary_expr_keeps hR (proc_binary_expr_keeps hR (proc_binary_expr_keeps hR hc _ n) _ n)
      _ n) _ n) _ n) _ n

theorem paramLoop_keeps (ha : Keeps R assign) {n : Nat} {params result : List Node}
    (h : paramLoop assign n params p = some (result, p')) :
    R p p' ∧ (b + (params.map Node.size).sum ≤ p.nodes →
      b + (result.map Node.size).sum ≤ p'.nodes) := by
  induction n generalizing params p with
  | zero => cases h
  | succ n ih =>
    obtain ⟨⟨token, p1⟩, ht, h⟩ := Option.bind_eq_some_iff.mp h
    have hn := next_token_nodes ht
    have h1 := hR.token ht
    dsimp only at h
    split at h
    · obtain ⟨⟨param, p2⟩, hp, h⟩ := Option.bind_eq_some_iff.mp h
      obtain ⟨h2, hs2⟩ := ha _ _ _ hp
      cases param with
      | null =>
        obtain ⟨h3, hs3⟩ := ih h
        refine ⟨hR.trans (hR.trans h1 h2) (hR.trans (hR.error p2 (by decide)) h3), fun hb => hs3 ?_⟩
        show b + (params.map Node.size).sum ≤ p2.nodes
        omega
      | node t d a c s =>
        obtain ⟨h3, hs3⟩ := ih h
        refine ⟨hR.trans (hR.trans h1 h2) h3, fun hb => hs3 ?_⟩
        rw [List.map_append, List.sum_append, List.map_singleton, List.sum_singleton]
        omega
    · cases h
      exact ⟨hR.trans h1 (hR.replay p1), fun hb => hb.trans_eq hn.symm⟩

theorem proc_param_list_keeps (ha : Keeps R assign) (n : Nat) : Keeps R (proc_param_list assign n) := by
  intro p r p' h
  obtain ⟨⟨param, p1⟩, hp, h⟩ := Option.bind_eq_some_iff.mp h
  obtain ⟨h1, hs1⟩ := ha _ _ _ hp
  cases param with
  | null =>
    cases h
    exact ⟨h1, hs1⟩
  | node t d a c s =>
    obtain ⟨⟨params, p2⟩, hl, h⟩ := Option.bind_eq_some_iff.mp h
    cases h
    obtain ⟨h2, hs2⟩ := paramLoop_keeps (b := p.nodes) hR ha hl
    refine ⟨hR.trans h1 h2, ?_⟩
    have hlink := Node.link_size params .null
    have hsum := hs2 (by simpa using hs1)
    simp only [Node.size] at hlink
    omega

theorem proc_primary_expr_keeps (he : Keeps R assign) : Keeps R (proc_primary_expr symbols assign) := by
  intro p r p' h
  obtain ⟨⟨token, p1⟩, ht, h⟩ := Option.bind_eq_some_iff.mp h
  have hn := next_token_nodes ht
  have h1 := hR.token ht
  dsimp only at h
  have hvalue {type : NodeType} (hv : finsh_node_new_value type p1 = (r, p')) :
      R p p' ∧ p.nodes + r.size ≤ p'.nodes := by
    obtain ⟨h2, hs2⟩ := new_value_keeps hR hv
    exact ⟨hR.trans h1 h2, by omega⟩
  split at h
  · obtain ⟨⟨id, p2⟩, hid, h⟩ := Option.bind_eq_some_iff.mp h
    dsimp only at h
    obtain ⟨h2, hn2⟩ := proc_identifier_keeps hR hid
    obtain ⟨h3, hs3⟩ := new_id_keeps hR (Option.some.inj h)
    have hn2 : p2.nodes = p1.nodes := hn2
    exact ⟨hR.trans (hR.trans h1 (hR.replay p1)) (hR.trans h2 h3), by omega⟩
  · obtain ⟨⟨node, p2⟩, hnode, h⟩ := Option.bind_eq_some_iff.mp h
    dsimp only at h
    obtain ⟨p3, hm, h⟩ := Option.bind_eq_some_iff.mp h
    cases h
    obtain ⟨h2, hs2⟩ := he _ _ _ hnode
    obtain ⟨h3, hn3⟩ := match_token_keeps hR hm
    exact ⟨hR.trans h1 (hR.trans h2 h3), by omega⟩
  · exact hvalue (Option.some.inj h)
  · exact hvalue (Option.some.inj h)
  · exact hvalue (Option.some.inj h)
  · obtain ⟨h2, hs2⟩ := new_string_keeps hR h
    exact ⟨hR.trans h1 h2, by omega⟩
  · exact hvalue (Option.some.inj h)
  · cases h
    exact ⟨hR.trans h1 (hR.error p1 (by decide)), hn.ge⟩

theorem proc_call_keeps (ha : Keeps R assign) (n : Nat) : Keeps R (proc_call assign n) := by
  intro p r p' h
  obtain ⟨⟨token, p1⟩, ht, h⟩ := Option.bind_eq_some_iff.mp h
  have hn := next_token_nodes ht
  have h1 := hR.token ht
  dsimp only at h
  split at h
  · obtain ⟨⟨params, p2⟩, hp, h⟩ := Option.bind_eq_some_iff.mp h
    dsimp only at h
    obtain ⟨p3, hm, h⟩ := Option.bind_eq_some_iff.mp h
    cases h
    obtain ⟨h2, hs2⟩ := proc_param_list_keeps hR ha n _ _ _ hp
    obtain ⟨h3, hn3⟩ := match_token_keeps hR hm
    have hs2 : p1.nodes + r.size ≤ p2.nodes := hs2
    exact ⟨hR.trans (hR.trans h1 (hR.replay p1)) (hR.trans h2 h3), by omega⟩
  · cases h
    exact ⟨h1, hn.ge⟩

theorem postfixLoop_keeps (ha : Keeps R assign) {m n : Nat} {node : Node}
    (h : postfixLoop assign m n node p = some (r, p')) :
    R p p' ∧ (b + node.size ≤ p.nodes → b + r.size ≤ p'.nodes) := by
  induction n generalizing node p with
  | zero => cases h
  | succ n ih =>
    obtain ⟨⟨token, p1⟩, ht, h⟩ := Option.bind_eq_some_iff.mp h
    have hn := next_token_nodes ht
    have h1 := hR.token ht
    have hmake {type : NodeType} {node' : Node} {p2 : Parser}
        (hm : make_sys_node type node .null p1 = (node', p2))
        (h : postfixLoop assign m n node' p2 = some (r, p')) :
        R p p' ∧ (b + node.size ≤ p.nodes → b + r.size ≤ p'.nodes) := by
      obtain ⟨h2, hs2⟩ := make_sys_node_keeps (b := b) hR hm
      obtain ⟨h3, hs3⟩ := ih h
      exact ⟨hR.trans h1 (hR.trans h2 h3), fun hb => hs3 (hs2 (by simp only [Node.size]; omega))⟩
    dsimp only at h
    split at h
    · rcases hm : make_sys_node .SYS_INC node .null p1 with ⟨node', p2⟩
      simp only [hm] at h
      exact hmake hm h
    · rcases hm : make_sys_node .SYS_DEC node .null p1 with ⟨node', p2⟩
      simp only [hm] at h
      exact hmake hm h
    · obtain ⟨⟨params, p2⟩, hc, h⟩ := Option.bind_eq_some_iff.mp h
      obtain ⟨h2, hs2⟩ := proc_call_keeps hR ha m _ _ _ hc
      rcases hm : make_sys_node .SYS_FUNC node params p2 with ⟨node', p3⟩
      simp only [hm] at h
      obtain ⟨h3, hs3⟩ := make_sys_node_keeps (b := b) hR hm
      obtain ⟨h4, hs4⟩ := ih h
      exact ⟨hR.trans (hR.trans h1 h2) (hR.trans h3 h4), fun hb => hs4 (hs3 (by omega))⟩
    · cases h
      exact ⟨hR.trans h1 (hR.replay p1), fun hb => hb.trans_eq hn.symm⟩

theorem proc_postfix_expr_keeps (ha : Keeps R assign) (n : Nat) :
    Keeps R (proc_postfix_expr symbols assign n) := by
  intro p r p' h
  obtain ⟨⟨node, p1⟩, hp, h⟩ := Option.bind_eq_some_iff.mp h
  obtain ⟨h1, hs1⟩ := proc_primary_expr_keeps hR ha _ _ _ hp
  obtain ⟨h2, hs2⟩ := postfixLoop_keeps hR ha h
  exact ⟨hR.trans h1 h2, hs2 hs1⟩

theorem proc_unary_expr_keeps (ha : Keeps R assign) (hc : Keeps R cast) (n : Nat) :
    Keeps R (proc_unary_expr symbols assign cast n) := by
  intro p r p' h
  obtain ⟨⟨token, p1⟩, ht, h⟩ := Option.bind_eq_some_iff.mp h
  have hn := next_token_nodes ht
  have h1 := hR.token ht
  dsimp only at h
  split at h
  · obtain ⟨h2, hs2⟩ := hc _ _ _ h
    exact ⟨hR.trans h1 h2, by omega⟩
  split at h
  · obtain ⟨⟨operand, p2⟩, ho, h⟩ := Option.bind_eq_some_iff.mp h
    obtain ⟨h2, hs2⟩ := hc _ _ _ ho
    rcases hz : finsh_node_new_value (.VALUE_LONG 0) p2 with ⟨zero, p3⟩
    simp only [hz] at h
    obtain ⟨h3, hs3⟩ := new_value_keeps hR hz
    obtain ⟨h4, hs4⟩ := make_sys_node_keeps (b := p.nodes) hR (Option.some.inj h)
    exact ⟨hR.trans (hR.trans h1 h2) (hR.trans h3 h4), hs4 (by omega)⟩
  split at h
  · obtain ⟨⟨operand, p2⟩, ho, h⟩ := Option.bind_eq_some_iff.mp h
    obtain ⟨h2, hs2⟩ := hc _ _ _ ho
    obtain ⟨h3, hs3⟩ := make_sys_node_keeps (b := p.nodes) hR (Option.some.inj h)
    exact ⟨hR.trans (hR.trans h1 h2) h3, hs3 (by simp only [Node.size]; omega)⟩
  · obtain ⟨h2, hs2⟩ := proc_postfix_expr_keeps hR ha n _ _ _ h
    exact ⟨hR.trans (hR.trans h1 (hR.replay p1)) h2, hs2.trans' (Nat.add_le_add_right hn.ge _)⟩

/-- Casts and expressions. -/
theorem proc_cast_assign_keeps (n : Nat) :
    Keeps R (proc_cast_expr symbols n) ∧ Keeps R (proc_assign_expr symbols n) := by
  induction n with
  | zero => exact ⟨fun _ _ _ h => (by cases h), fun _ _ _ h => (by cases h)⟩
  | succ n ih =>
    obtain ⟨ihc, iha⟩ := ih
    refine ⟨fun p r p' h => ?_, fun p r p' h => ?_⟩
    · rw [proc_cast_expr] at h
      obtain ⟨⟨token, p1⟩, ht, h⟩ := Option.bind_eq_some_iff.mp h
      have hn := next_token_nodes ht
      have h1 := hR.token ht
      dsimp only at h
      split at h
      · obtain ⟨⟨type, p2⟩, htype, h⟩ := Option.bind_eq_some_iff.mp h
        dsimp only at h
        obtain ⟨p3, hm, h⟩ := Option.bind_eq_some_iff.mp h
        obtain ⟨⟨cast, p4⟩, hc, h⟩ := Option.bind_eq_some_iff.mp h
        obtain ⟨h2, hn2⟩ := proc_type_keeps hR htype
        obtain ⟨h3, hn3⟩ := match_token_keeps hR hm
        obtain ⟨h4, hs4⟩ := ihc _ _ _ hc
        have h14 := hR.trans (hR.trans h1 h2) (hR.trans h3 h4)
        cases cast with
        | null =>
          obtain ⟨h5, hs5⟩ := proc_unary_expr_keeps hR iha ihc n _ _ _ h
          have hs5 : p4.nodes + r.size ≤ p'.nodes := hs5
          exact ⟨hR.trans (hR.trans h14 (hR.replay p4)) h5, by omega⟩
        | node t d a c s =>
          cases h
          refine ⟨h14, ?_⟩
          show p.nodes + (Node.setDataType _ _).size ≤ p'.nodes
          rw [Node.setDataType_size]
          omega
      · obtain ⟨h2, hs2⟩ := proc_unary_expr_keeps hR iha ihc n _ _ _ h
        exact ⟨hR.trans (hR.trans h1 (hR.replay p1)) h2, hs2.trans' (Nat.add_le_add_right hn.ge _)⟩
    · rw [proc_assign_expr] at h
      obtain ⟨⟨or, p1⟩, ho, h⟩ := Option.bind_eq_some_iff.mp h
      obtain ⟨⟨token, p2⟩, ht, h⟩ := Option.bind_eq_some_iff.mp h
      obtain ⟨h1, hs1⟩ := proc_inclusive_or_expr_keeps hR ihc n _ _ _ ho
      have hn2 := next_token_nodes ht
      have h2 := hR.trans h1 (hR.token ht)
      dsimp only at h
      split at h
      · obtain ⟨⟨assign, p3⟩, ha, h⟩ := Option.bind_eq_some_iff.mp h
        dsimp only at h
        obtain ⟨h3, hs3⟩ := iha _ _ _ ha
        obtain ⟨h4, hs4⟩ := make_sys_node_keeps (b := p.nodes) hR (Option.some.inj h)
        exact ⟨hR.trans h2 (hR.trans h3 h4), hs4 (by omega)⟩
      · cases h
        exact ⟨hR.trans h2 (hR.replay p2), hs1.trans_eq hn2.symm⟩

/-! ### Statements -/

theorem declare_keeps (id : List UInt8) (type : FinshType) (p : Parser) :
    R p (declare id type p) ∧ (declare id type p).nodes = p.nodes := by
  rw [declare]
  split
  · exact ⟨hR.vars p _, rfl⟩
  · exact ⟨hR.error p (by decide), rfl⟩

theorem declInit_keeps (ha : Keeps R assign) {id : List UInt8} {nodes nodes' : List Node}
    {token token' : TokenType}
    (h : declInit symbols assign id nodes token p = some (nodes', token', p')) :
    R p p' ∧ (b + (nodes.map Node.size).sum ≤ p.nodes →
      b + (nodes'.map Node.size).sum ≤ p'.nodes) := by
  rw [declInit] at h
  split at h
  · obtain ⟨⟨node, p1⟩, hn, h⟩ := Option.bind_eq_some_iff.mp h
    obtain ⟨h1, hs1⟩ := ha _ _ _ hn
    cases node with
    | null =>
      cases h
      exact ⟨h1, fun hb => hb.trans (by omega)⟩
    | node t d a c s =>
      rcases hid : finsh_node_new_id symbols id p1 with ⟨idnode, p2⟩
      rcases hm : make_sys_node .SYS_ASSIGN idnode (.node t d a c s) p2 with ⟨node, p3⟩
      simp only [hid, hm] at h
      obtain ⟨⟨token2, p4⟩, ht, h⟩ := Option.bind_eq_some_iff.mp h
      cases h
      obtain ⟨h2, hs2⟩ := new_id_keeps hR hid
      obtain ⟨h3, hs3⟩ := make_sys_node_keeps (b := b + (nodes.map Node.size).sum) hR hm
      have hn4 := next_token_nodes ht
      refine ⟨hR.trans (hR.trans h1 h2) (hR.trans h3 (hR.token ht)), fun hb => ?_⟩
      have hb3 := hs3 (by omega)
      show b + (List.map Node.size (if node = .null then nodes else nodes ++ [node])).sum ≤ p4.nodes
      split
      · omega
      · rw [List.map_append, List.sum_append, List.map_singleton, List.sum_singleton]
        omega
  · cases h
    exact ⟨hR.refl p, fun hb => hb⟩

theorem declLoop_keeps (ha : Keeps R assign) {type : FinshType} {n : Nat} {nodes nodes' : List Node}
    {token : TokenType} (h : declLoop symbols assign type n nodes token p = some (nodes', p')) :
    R p p' ∧ (b + (nodes.map Node.size).sum ≤ p.nodes →
      b + (nodes'.map Node.size).sum ≤ p'.nodes) := by
  induction n generalizing nodes token p with
  | zero => cases h
  | succ n ih =>
    rw [declLoop] at h
    split at h
    · obtain ⟨⟨id, p1⟩, hid, h⟩ := Option.bind_eq_some_iff.mp h
      obtain ⟨⟨token2, p2⟩, ht, h⟩ := Option.bind_eq_some_iff.mp h
      obtain ⟨⟨nodes2, token3, p3⟩, hi, h⟩ := Option.bind_eq_some_iff.mp h
      obtain ⟨h1, hn1⟩ := proc_identifier_keeps hR hid
      obtain ⟨h2, hn2⟩ := declare_keeps hR id type p1
      have hn3 := next_token_nodes ht
      obtain ⟨h4, hs4⟩ := declInit_keeps hR ha hi
      obtain ⟨h5, hs5⟩ := ih h
      exact ⟨hR.trans (hR.trans h1 h2) (hR.trans (hR.token ht) (hR.trans h4 h5)),
        fun hb => hs5 (hs4 (by omega))⟩
    · cases h
      obtain ⟨h1, hn1⟩ := check_token_keeps hR token .semicolon p
      exact ⟨h1, fun hb => hb.trans_eq hn1.symm⟩

theorem proc_variable_decl_keeps (n : Nat) : Keeps R (proc_variable_decl symbols n) := by
  intro p r p' h
  obtain ⟨⟨type, p1⟩, htype, h⟩ := Option.bind_eq_some_iff.mp h
  obtain ⟨⟨id, p2⟩, hid, h⟩ := Option.bind_eq_some_iff.mp h
  obtain ⟨⟨token, p3⟩, ht, h⟩ := Option.bind_eq_some_iff.mp h
  obtain ⟨h1, hn1⟩ := proc_type_keeps hR htype
  obtain ⟨h2, hn2⟩ := proc_identifier_keeps hR hid
  obtain ⟨h3, hn3⟩ := declare_keeps hR id type p2
  have hn4 := next_token_nodes ht
  have h4 := hR.trans (hR.trans h1 h2) (hR.trans h3 (hR.token ht))
  dsimp only at h
  split at h
  · obtain ⟨⟨nodes, token2, p5⟩, hi, h⟩ := Option.bind_eq_some_iff.mp h
    dsimp only at h
    obtain ⟨⟨nodes', p6⟩, hl, h⟩ := Option.bind_eq_some_iff.mp h
    cases h
    have ha : Keeps R (proc_assign_expr symbols n) := (proc_cast_assign_keeps hR n).2
    obtain ⟨h5, hs5⟩ := declInit_keeps (b := p.nodes) hR ha hi
    obtain ⟨h6, hs6⟩ := declLoop_keeps (b := p.nodes) hR ha hl
    have hsum := hs6 (hs5 (by simp only [List.map_nil, List.sum_nil]; omega))
    have hlink := Node.link_size nodes' .null
    simp only [Node.size] at hlink
    refine ⟨hR.trans h4 (hR.trans h5 h6), ?_⟩
    show p.nodes + (Node.link nodes' .null).size ≤ p6.nodes
    omega
  · split at h
    · cases h
      exact ⟨h4, by simp only [Node.size]; omega⟩
    · cases h
      refine ⟨hR.trans h4 (hR.error p3 (by decide)), ?_⟩
      show p.nodes + 0 ≤ p3.nodes
      omega

theorem proc_expr_statement_keeps (n : Nat) : Keeps R (proc_expr_statement symbols n) := by
  intro p r p' h
  obtain ⟨⟨token, p1⟩, ht, h⟩ := Option.bind_eq_some_iff.mp h
  have hn := next_token_nodes ht
  have h1 := hR.token ht
  dsimp only at h
  split at h
  · obtain ⟨⟨expr, p2⟩, he, h⟩ := Option.bind_eq_some_iff.mp h
    dsimp only at h
    obtain ⟨p3, hm, h⟩ := Option.bind_eq_some_iff.mp h
    cases h
    obtain ⟨h2, hs2⟩ := (proc_cast_assign_keeps hR n).2 _ _ _ he
    obtain ⟨h3, hn3⟩ := match_token_keeps hR hm
    have hs2 : p1.nodes + r.size ≤ p2.nodes := hs2
    exact ⟨hR.trans (hR.trans h1 (hR.replay p1)) (hR.trans h2 h3), by omega⟩
  · cases h
    exact ⟨h1, hn.ge⟩

theorem proc_statement_keeps (n : Nat) (token : TokenType) :
    Keeps R (proc_statement symbols n token) := by
  intro p r p' h
  have hr := hR.replay p
  rw [proc_statement] at h
  split at h
  · obtain ⟨h1, hs1⟩ := proc_variable_decl_keeps hR n _ _ _ h
    exact ⟨hR.trans hr h1, hs1⟩
  · obtain ⟨h1, hs1⟩ := proc_expr_statement_keeps hR n _ _ _ h
    exact ⟨hR.trans hr h1, hs1⟩

theorem skipToken_keeps {token : TokenType} (h : skipToken token p = some p') :
    R p p' ∧ p'.nodes = p.nodes := by
  rw [skipToken] at h
  split at h
  · cases h
    exact ⟨hR.refl p, rfl⟩
  · obtain ⟨⟨token', p1⟩, ht, rfl⟩ := Option.map_eq_some_iff.mp h
    exact ⟨hR.token ht, next_token_nodes ht⟩

theorem parserLoop_keeps {n : Nat} {token : TokenType} {before : List Node} {after : Node}
    (h : parserLoop symbols n token before after p = some (r, p')) :
    R p p' ∧ ((before.map fun n => (n.setSibling .null).size).sum + after.size ≤ p.nodes →
      r.size ≤ p'.nodes) := by
  induction n generalizing token before after p with
  | zero => cases h
  | succ n ih =>
    rw [parserLoop] at h
    split at h
    · cases h
      exact ⟨hR.refl _, (Node.link_size_add before after).trans⟩
    · obtain ⟨⟨node, p1⟩, hs, h⟩ := Option.bind_eq_some_iff.mp h
      obtain ⟨h1, hs1⟩ := proc_statement_keeps hR n token _ _ _ hs
      cases node with
      | null =>
        dsimp only at h
        split at h
        · cases h
          exact ⟨h1, fun _ => Nat.zero_le _⟩
        · obtain ⟨p2, h2, h⟩ := Option.bind_eq_some_iff.mp h
          obtain ⟨⟨token3, p3⟩, ht, h⟩ := Option.bind_eq_some_iff.mp h
          have hkeep := skipToken_keeps hR h2
          obtain ⟨h4, hs4⟩ := ih h
          have hn3 := next_token_nodes ht
          refine ⟨hR.trans (hR.trans h1 hkeep.1) (hR.trans (hR.token ht) h4), fun hb => hs4 ?_⟩
          have hk := hkeep.2
          simp only [Node.size] at hs1 ⊢
          omega
      | node t d a c s =>
        obtain ⟨⟨token3, p3⟩, ht, h⟩ := Option.bind_eq_some_iff.mp h
        obtain ⟨h4, hs4⟩ := ih h
        have hn3 := next_token_nodes ht
        refine ⟨hR.trans h1 (hR.trans (hR.token ht) h4), fun hb => hs4 ?_⟩
        have hself := Node.setSibling_size_self (.node t d a c s)
        rw [List.map_append, List.sum_append, List.map_singleton, List.sum_singleton]
        omega

/-- A run of the parser respects the relation and takes the nodes of the root from the pool. -/
theorem parser_run_keeps {n : Nat} {vars : List Var} {line : List UInt8}
    (h : finsh_parser_run symbols n vars line = some (r, p')) :
    R (.init vars line) p' ∧ r.size ≤ p'.nodes := by
  obtain ⟨⟨token, p1⟩, ht, h⟩ := Option.bind_eq_some_iff.mp h
  obtain ⟨h1, hs1⟩ := parserLoop_keeps hR h
  exact ⟨hR.trans (hR.token ht) h1, hs1 (Nat.zero_le _)⟩

end Frame

/-! ### Larger bounds -/

/-- `g` has the results that `f` has. -/
def Extends (f g : Proc) : Prop := ∀ p x, f p = some x → g p = some x

section Mono

variable {operand operand' assign assign' cast cast' : Proc} {n n' m m' : Nat} {p : Parser}

theorem Extends.refl (f : Proc) : Extends f f := fun _ _ h => h

theorem Extends.bind {α β : Type} {x x' : Option α} {f f' : α → Option β}
    (hx : ∀ a, x = some a → x' = some a) (hf : ∀ a b, f a = some b → f' a = some b) {b : β}
    (h : x.bind f = some b) : x'.bind f' = some b := by
  obtain ⟨a, ha, h⟩ := Option.bind_eq_some_iff.mp h
  exact Option.bind_eq_some_iff.mpr ⟨a, hx a ha, hf a b h⟩

theorem binaryLoop_extends (ho : Extends operand operand') (op : TokenType → Option BinOp)
    (hn : n ≤ n') (left : Node) :
    Extends (binaryLoop operand op n left) (binaryLoop operand' op n' left) := by
  induction n generalizing n' left with
  | zero => exact fun _ _ h => (by cases h)
  | succ n ih =>
    obtain ⟨n', rfl⟩ := Nat.exists_eq_add_of_le' (Nat.le_trans (Nat.succ_le_succ (Nat.zero_le n)) hn)
    have ih := fun left => ih (Nat.le_of_succ_le_succ hn) left
    intro p x h
    rw [binaryLoop] at h ⊢
    refine Extends.bind (fun _ h => h) (fun ⟨token, p1⟩ x h => ?_) h
    dsimp only at h ⊢
    split at h
    · exact h
    · refine Extends.bind (ho p1) (fun ⟨right, p2⟩ x h => ?_) h
      cases right with
      | null => exact ih left _ _ h
      | node t d a c s => exact ih _ _ _ h

theorem proc_binary_expr_extends (ho : Extends operand operand') (op : TokenType → Option BinOp)
    (hn : n ≤ n') : Extends (proc_binary_expr operand op n) (proc_binary_expr operand' op n') :=
  fun p _ h => Extends.bind (ho p) (fun ⟨left, p1⟩ _ h => binaryLoop_extends ho op hn left p1 _ h) h

theorem proc_inclusive_or_expr_extends (hc : Extends cast cast') (hn : n ≤ n') :
    Extends (proc_inclusive_or_expr cast n) (proc_inclusive_or_expr cast' n') :=
  proc_binary_expr_extends (proc_binary_expr_extends (proc_binary_expr_extends
    (proc_binary_expr_extends (proc_binary_expr_extends (proc_binary_expr_extends hc _ hn) _ hn) _ hn)
      _ hn) _ hn) _ hn

theorem paramLoop_extends (ha : Extends assign assign') (hn : n ≤ n') {params : List Node}
    {x : List Node × Parser} (h : paramLoop assign n params p = some x) :
    paramLoop assign' n' params p = some x := by
  induction n generalizing n' params p x with
  | zero => cases h
  | succ n ih =>
    obtain ⟨n', rfl⟩ := Nat.exists_eq_add_of_le' (Nat.le_trans (Nat.succ_le_succ (Nat.zero_le n)) hn)
    have hn := Nat.le_of_succ_le_succ hn
    rw [paramLoop] at h ⊢
    refine Extends.bind (fun _ h => h) (fun ⟨token, p1⟩ x h => ?_) h
    dsimp only at h ⊢
    split at h
    · next heq =>
      rw [if_pos heq]
      refine Extends.bind (ha p1) (fun ⟨param, p2⟩ x h => ?_) h
      cases param with
      | null | node t d a c s =>
        dsimp only at h ⊢
        exact ih hn h
    · next heq =>
      rw [if_neg heq]
      exact h

theorem proc_param_list_extends (ha : Extends assign assign') (hn : n ≤ n') :
    Extends (proc_param_list assign n) (proc_param_list assign' n') := by
  intro p x h
  refine Extends.bind (ha p) (fun ⟨param, p1⟩ x h => ?_) h
  cases param with
  | null => exact h
  | node t d a c s => exact Extends.bind (fun _ h => paramLoop_extends ha hn h) (fun _ _ h => h) h

theorem proc_primary_expr_extends (symbols : Symbols) (ha : Extends assign assign') :
    Extends (proc_primary_expr symbols assign) (proc_primary_expr symbols assign') := by
  intro p x h
  refine Extends.bind (fun _ h => h) (fun ⟨token, p1⟩ x h => ?_) h
  dsimp only at h ⊢
  cases token with
  | left_paren => exact Extends.bind (ha p1) (fun _ _ h => h) h
  | _ => exact h

theorem proc_call_extends (ha : Extends assign assign') (hn : n ≤ n') :
    Extends (proc_call assign n) (proc_call assign' n') := by
  intro p x h
  refine Extends.bind (fun _ h => h) (fun ⟨token, p1⟩ x h => ?_) h
  dsimp only at h ⊢
  split at h
  · next heq =>
    rw [if_pos heq]
    exact Extends.bind (proc_param_list_extends ha hn _) (fun _ _ h => h) h
  · next heq =>
    rw [if_neg heq]
    exact h

theorem postfixLoop_extends (ha : Extends assign assign') (hm : m ≤ m') (hn : n ≤ n') (node : Node) :
    Extends (postfixLoop assign m n node) (postfixLoop assign' m' n' node) := by
  induction n generalizing n' node with
  | zero => exact fun _ _ h => (by cases h)
  | succ n ih =>
    obtain ⟨n', rfl⟩ := Nat.exists_eq_add_of_le' (Nat.le_trans (Nat.succ_le_succ (Nat.zero_le n)) hn)
    have hn := Nat.le_of_succ_le_succ hn
    intro p x h
    rw [postfixLoop] at h ⊢
    refine Extends.bind (fun _ h => h) (fun ⟨token, p1⟩ x h => ?_) h
    dsimp only at h ⊢
    cases token with
    | inc => exact ih hn _ _ _ h
    | dec => exact ih hn _ _ _ h
    | left_paren => exact Extends.bind (proc_call_extends ha hm p1) (fun _ _ h => ih hn _ _ _ h) h
    | _ => exact h

theorem proc_postfix_expr_extends (symbols : Symbols) (ha : Extends assign assign') (hn : n ≤ n') :
    Extends (proc_postfix_expr symbols assign n) (proc_postfix_expr symbols assign' n') :=
  fun p _ h => Extends.bind (proc_primary_expr_extends symbols ha p)
    (fun ⟨node, p1⟩ _ h => postfixLoop_extends ha hn hn node p1 _ h) h

theorem proc_unary_expr_extends (symbols : Symbols) (ha : Extends assign assign')
    (hc : Extends cast cast') (hn : n ≤ n') :
    Extends (proc_unary_expr symbols assign cast n) (proc_unary_expr symbols assign' cast' n') := by
  intro p x h
  refine Extends.bind (fun _ h => h) (fun ⟨token, p1⟩ x h => ?_) h
  dsimp only at h ⊢
  split at h
  · next heq =>
    rw [if_pos heq]
    exact hc _ _ h
  · next heq =>
    rw [if_neg heq]
    split at h
    · next heq =>
      rw [if_pos heq]
      exact Extends.bind (hc p1) (fun _ _ h => h) h
    · next heq =>
      rw [if_neg heq]
      split at h
      · exact Extends.bind (hc p1) (fun _ _ h => h) h
      · exact proc_postfix_expr_extends symbols ha hn _ _ h

theorem proc_cast_assign_extends (symbols : Symbols) (hn : n ≤ n') :
    Extends (proc_cast_expr symbols n) (proc_cast_expr symbols n') ∧
      Extends (proc_assign_expr symbols n) (proc_assign_expr symbols n') := by
  induction n generalizing n' with
  | zero => exact ⟨fun _ _ h => (by cases h), fun _ _ h => (by cases h)⟩
  | succ n ih =>
    obtain ⟨n', rfl⟩ := Nat.exists_eq_add_of_le' (Nat.le_trans (Nat.succ_le_succ (Nat.zero_le n)) hn)
    have hn := Nat.le_of_succ_le_succ hn
    obtain ⟨ihc, iha⟩ := ih hn
    refine ⟨fun p x h => ?_, fun p x h => ?_⟩
    · rw [proc_cast_expr] at h ⊢
      refine Extends.bind (fun _ h => h) (fun ⟨token, p1⟩ x h => ?_) h
      dsimp only at h ⊢
      split at h
      · next heq =>
        rw [if_pos heq]
        refine Extends.bind (fun _ h => h) (fun ⟨type, p2⟩ x h => ?_) h
        refine Extends.bind (fun _ h => h) (fun p3 x h => ?_) h
        refine Extends.bind (ihc p3) (fun ⟨cast, p4⟩ x h => ?_) h
        cases cast with
        | null => exact proc_unary_expr_extends symbols iha ihc hn _ _ h
        | node t d a c s => exact h
      · next heq =>
        rw [if_neg heq]
        exact proc_unary_expr_extends symbols iha ihc hn _ _ h
    · rw [proc_assign_expr] at h ⊢
      refine Extends.bind (proc_inclusive_or_expr_extends ihc hn p) (fun ⟨or, p1⟩ x h => ?_) h
      refine Extends.bind (fun _ h => h) (fun ⟨token, p2⟩ x h => ?_) h
      dsimp only at h ⊢
      split at h
      · next heq =>
        rw [if_pos heq]
        exact Extends.bind (iha p2) (fun _ _ h => h) h
      · next heq =>
        rw [if_neg heq]
        exact h

theorem declInit_extends (symbols : Symbols) (ha : Extends assign assign') {id : List UInt8}
    {nodes : List Node} {token : TokenType} {x : List Node × TokenType × Parser}
    (h : declInit symbols assign id nodes token p = some x) :
    declInit symbols assign' id nodes token p = some x := by
  rw [declInit] at h ⊢
  split at h
  · next heq =>
    rw [if_pos heq]
    refine Extends.bind (ha p) (fun ⟨node, p1⟩ x h => ?_) h
    cases node with
    | null => exact h
    | node t d a c s => exact h
  · next heq =>
    rw [if_neg heq]
    exact h

theorem declLoop_extends (symbols : Symbols) (ha : Extends assign assign') (hn : n ≤ n')
    {type : FinshType} {nodes : List Node} {token : TokenType} {x : List Node × Parser}
    (h : declLoop symbols assign type n nodes token p = some x) :
    declLoop symbols assign' type n' nodes token p = some x := by
  induction n generalizing n' nodes token p x with
  | zero => cases h
  | succ n ih =>
    obtain ⟨n', rfl⟩ := Nat.exists_eq_add_of_le' (Nat.le_trans (Nat.succ_le_succ (Nat.zero_le n)) hn)
    have hn := Nat.le_of_succ_le_succ hn
    rw [declLoop] at h ⊢
    split at h
    · next heq =>
      rw [if_pos heq]
      refine Extends.bind (fun _ h => h) (fun ⟨id, p1⟩ x h => ?_) h
      refine Extends.bind (fun _ h => h) (fun ⟨token2, p2⟩ x h => ?_) h
      exact Extends.bind (fun _ h => declInit_extends symbols ha h)
        (fun ⟨nodes', token3, p3⟩ _ h => ih hn h) h
    · next heq =>
      rw [if_neg heq]
      exact h

theorem proc_statement_extends (symbols : Symbols) (hn : n ≤ n') (token : TokenType) :
    Extends (proc_statement symbols n token) (proc_statement symbols n' token) := by
  have ha := (proc_cast_assign_extends symbols hn).2
  intro p x h
  rw [proc_statement] at h ⊢
  split at h
  · next heq =>
    rw [if_pos heq]
    refine Extends.bind (fun _ h => h) (fun ⟨type, p1⟩ x h => ?_) h
    refine Extends.bind (fun _ h => h) (fun ⟨id, p2⟩ x h => ?_) h
    refine Extends.bind (fun _ h => h) (fun ⟨token2, p3⟩ x h => ?_) h
    dsimp only at h ⊢
    split at h
    · next heq =>
      rw [if_pos heq]
      exact Extends.bind (fun _ h => declInit_extends symbols ha h)
        (fun _ _ h => Extends.bind (fun _ h => declLoop_extends symbols ha hn h) (fun _ _ h => h) h) h
    · next heq =>
      rw [if_neg heq]
      exact h
  · next heq =>
    rw [if_neg heq]
    rw [proc_expr_statement] at h ⊢
    refine Extends.bind (fun _ h => h) (fun ⟨token2, p1⟩ x h => ?_) h
    dsimp only at h ⊢
    split at h
    · next heq =>
      rw [if_pos heq]
      exact Extends.bind (ha _) (fun _ _ h => h) h
    · next heq =>
      rw [if_neg heq]
      exact h

theorem parserLoop_extends (symbols : Symbols) (hn : n ≤ n') {token : TokenType} {before : List Node}
    {after : Node} {x : Node × Parser} (h : parserLoop symbols n token before after p = some x) :
    parserLoop symbols n' token before after p = some x := by
  induction n generalizing n' token before after p x with
  | zero => cases h
  | succ n ih =>
    obtain ⟨n', rfl⟩ := Nat.exists_eq_add_of_le' (Nat.le_trans (Nat.succ_le_succ (Nat.zero_le n)) hn)
    have hn := Nat.le_of_succ_le_succ hn
    rw [parserLoop] at h ⊢
    split at h
    · next heq =>
      rw [if_pos heq]
      exact h
    · next heq =>
      rw [if_neg heq]
      refine Extends.bind (proc_statement_extends symbols hn token p) (fun ⟨node, p1⟩ x h => ?_) h
      cases node with
      | null =>
        dsimp only at h ⊢
        split at h
        · next heq =>
          rw [if_pos heq]
          exact h
        · next heq =>
          rw [if_neg heq]
          refine Extends.bind (fun _ h => h) (fun p2 x h => ?_) h
          exact Extends.bind (fun _ h => h) (fun ⟨token3, p3⟩ _ h => ih hn h) h
      | node t d a c s => exact Extends.bind (fun _ h => h) (fun ⟨token3, p3⟩ _ h => ih hn h) h

/-- The result of a run does not depend on the bound. -/
theorem parser_run_unique {symbols : Symbols} {vars : List Var} {line : List UInt8}
    {x x' : Node × Parser} (h : finsh_parser_run symbols n vars line = some x)
    (h' : finsh_parser_run symbols n' vars line = some x') : x = x' := by
  have hext {k k' : Nat} (hk : k ≤ k') {y : Node × Parser}
      (hy : finsh_parser_run symbols k vars line = some y) :
      finsh_parser_run symbols k' vars line = some y :=
    Extends.bind (fun _ h => h) (fun _ _ h => parserLoop_extends symbols hk h) hy
  have h1 := hext (Nat.le_max_left n n') h
  have h2 := hext (Nat.le_max_right n n') h'
  exact Option.some.inj (h1.symm.trans h2)

end Mono

end Ab32Vg1.Finsh
