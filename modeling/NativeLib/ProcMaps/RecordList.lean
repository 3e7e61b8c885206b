import NativeLib.Basic
import NativeLib.Memory.Chains
import NativeLib.ProcMaps.Fgets
import NativeLib.ProcMaps.Records

/-! `proc_maps_parser/pmparser.cpp`: the linked list that `pmparser_parse` builds of the maps file,
which `fgets` reads piece by piece, and the functions that walk it and free it. The blocks are those
that `malloc` returned, one after the other; there is no result where a block that is not allocated
is used or a store leaves its buffer. -/

namespace NativeLib.ProcMaps

open HideMaps Memory

/-- What is used of a record, with its link. -/
structure Node where
  record : ProcmapsStruct
  next : Ptr
  deriving DecidableEq, Repr

/-- The allocated records. -/
abbrev NodeHeap := Ptr → Option Node

/-- `procmaps_iterator`. -/
structure ProcmapsIterator where
  head : Ptr
  current : Ptr
  deriving DecidableEq, Repr

/-- `p->next = next`. -/
def NodeHeap.setNext (heap : NodeHeap) (p next : Ptr) : Option NodeHeap :=
  (heap p).map fun node => Function.update heap p (some { node with next })

/-- The variables of the loop of `pmparser_parse`. -/
structure ParseState where
  heap : NodeHeap
  listMaps : Ptr
  currentNode : Ptr
  ind : ℕ

/-- `attach the node`. The counter is an `int`. -/
def ParseState.attach (s : ParseState) (tmp : Ptr) (record : ProcmapsStruct) :
    Option ParseState := do
  let heap : NodeHeap := Function.update s.heap tmp (some ⟨record, nullptr⟩)
  let s := if s.ind = 0 then { s with listMaps := tmp, currentNode := tmp } else s
  let heap ← heap.setNext s.currentNode tmp
  if s.ind + 1 < 2 ^ 31 then some { s with heap, currentNode := tmp, ind := s.ind + 1 } else none

/-- The loop of `pmparser_parse`, over what its calls of `fgets` read; `malloc` has returned
`alloc 0` for the iterator. -/
def parseLoop (abi : Abi) (alloc : ℕ → Ptr) : List Line → ParseState → Option ParseState
  | [], s => some s
  | buf :: bufs, s => do
    let record ← parseRecord abi buf
    let s ← s.attach (alloc (s.ind + 1)) record.item
    parseLoop abi alloc bufs s

/-- `pmparser_parse` on the text of the maps file: the heap and the iterator. -/
def pmparserParse (abi : Abi) (alloc : ℕ → Ptr) (text : List Char) :
    Option (NodeHeap × ProcmapsIterator) := do
  let s ← parseLoop abi alloc (pieces (PROCMAPS_LINE_MAX_LENGTH - 1) text)
    ⟨fun _ => none, nullptr, nullptr, 0⟩
  some (s.heap, ⟨s.listMaps, s.listMaps⟩)

/-- `pmparser_next`. -/
def pmparserNext (heap : NodeHeap) (it : ProcmapsIterator) : Option (Ptr × ProcmapsIterator) :=
  if it.current = nullptr then some (nullptr, it)
  else (heap it.current).map fun node => (it.current, { it with current := node.next })

/-- What `k` calls of `pmparser_next` return. -/
def nextCalls (heap : NodeHeap) : ℕ → ProcmapsIterator → Option (List Ptr)
  | 0, _ => some []
  | k + 1, it => do
    let (p, it) ← pmparserNext heap it
    let ps ← nextCalls heap k it
    some (p :: ps)

/-- `if(nxt!=NULL) nxt=nxt->next;`. -/
def NodeHeap.advance (heap : NodeHeap) (nxt : Ptr) : Option Ptr :=
  if nxt = nullptr then some nullptr else (heap nxt).map (·.next)

/-- The loop of `pmparser_free`, at most `fuel` times round: the blocks that it frees. -/
def freeLoop : ℕ → NodeHeap → Ptr → Ptr → Option (List Ptr)
  | 0, _, _, _ => none
  | fuel + 1, heap, act, nxt =>
    if act = nullptr then some []
    else do
      let _ ← heap act
      let heap : NodeHeap := Function.update heap act none
      let next ← heap.advance nxt
      let freed ← freeLoop fuel heap nxt next
      some (act :: freed)

/-- `pmparser_free` of the iterator at `p`: the blocks that it frees. -/
def pmparserFree (fuel : ℕ) (heap : NodeHeap) (p : Ptr) (it : ProcmapsIterator) :
    Option (List Ptr) :=
  if it.head = nullptr then some []
  else do
    let node ← heap it.head
    let freed ← freeLoop fuel heap it.head node.next
    some (freed ++ [p])

/-- The link of a node. -/
def NodeHeap.link (heap : NodeHeap) (p : Ptr) : Ptr := ((heap p).map (·.next)).getD nullptr

/-- The blocks of `n` records. -/
def nodes (alloc : ℕ → Ptr) (n : ℕ) : List Ptr := (List.range n).map fun i => alloc (i + 1)

/-- The list holds the records in order, a walk meets each of them and then ends, and freeing
frees every block once. -/
structure ListWorks (alloc : ℕ → Ptr) (records : List ProcmapsStruct) (heap : NodeHeap)
    (it : ProcmapsIterator) : Prop where
  chain : Chain heap.link nullptr it.head (nodes alloc records.length)
  contents : (nodes alloc records.length).map (fun p => (heap p).map (·.record)) =
    records.map some
  next : ∀ k, nextCalls heap k it =
    some ((List.range k).map fun i => (nodes alloc records.length).getD i nullptr)
  free : ∃ fuel freed, pmparserFree fuel heap (alloc 0) it = some freed ∧
    freed.Perm (alloc 0 :: nodes alloc records.length)

/-- From `p` on, the list holds the records. -/
def NodeHeap.Holds (heap : NodeHeap) (p : Ptr) (records : List ProcmapsStruct) : Prop :=
  ∃ l, Chain heap.link nullptr p l ∧
    l.map (fun q => (heap q).map (·.record)) = records.map some

theorem setNext_of_some {heap : NodeHeap} {p : Ptr} {node : Node} (h : heap p = some node)
    (next : Ptr) :
    heap.setNext p next = some (Function.update heap p (some { node with next })) := by
  rw [NodeHeap.setNext, h, Option.map_some]

/-- Where the `i`-th of `k` records points: the first one to itself as long as it is alone. -/
def linkOf (alloc : ℕ → Ptr) (k i : ℕ) : Ptr :=
  if i + 1 < k then alloc (i + 2) else if k = 1 then alloc 1 else nullptr

/-- The loop has appended the records. -/
structure Built (alloc : ℕ → Ptr) (records : List ProcmapsStruct) (s : ParseState) : Prop where
  nonempty : 0 < records.length
  ind : s.ind = records.length
  listMaps : s.listMaps = alloc 1
  currentNode : s.currentNode = alloc records.length
  heap : ∀ i record, records[i]? = some record →
    s.heap (alloc (i + 1)) = some ⟨record, linkOf alloc records.length i⟩

variable {abi : Abi} {alloc : ℕ → Ptr} {records : List ProcmapsStruct} {s : ParseState}

theorem Built.node (h : Built alloc records s) {i : ℕ} (hi : i < records.length) :
    s.heap (alloc (i + 1)) = some ⟨records[i], linkOf alloc records.length i⟩ :=
  h.heap i _ (List.getElem?_eq_getElem hi)

/-- The first record: the branch for it falls through to the link from the current node. -/
theorem attach_first (record : ProcmapsStruct) :
    ∃ s', (ParseState.mk (fun _ => none) nullptr nullptr 0).attach (alloc 1) record = some s' ∧
      Built alloc [record] s' := by
  refine ⟨⟨Function.update (Function.update (fun _ => none) (alloc 1) (some ⟨record, nullptr⟩))
    (alloc 1) (some ⟨record, alloc 1⟩), alloc 1, alloc 1, 1⟩, ?_, ?_⟩
  · simp only [ParseState.attach, if_true, setNext_of_some (Function.update_self ..),
      Option.bind_eq_bind, Option.bind_some]
    rfl
  · refine ⟨Nat.one_pos, rfl, rfl, rfl, ?_⟩
    intro i r hr
    obtain ⟨rfl, rfl⟩ : i = 0 ∧ record = r := by simpa [List.getElem?_singleton] using hr
    simp [linkOf]

/-- Another record: the last one so far points to it, and it to nothing. -/
theorem Built.attach (hinj : Function.Injective alloc) (h : Built alloc records s)
    (hlen : records.length + 1 < 2 ^ 31) (record : ProcmapsStruct) :
    ∃ s', s.attach (alloc (s.ind + 1)) record = some s' ∧ Built alloc (records ++ [record]) s' := by
  obtain ⟨k, hk⟩ : ∃ k, records.length = k + 1 := ⟨records.length - 1, by have := h.nonempty; omega⟩
  obtain ⟨last, hlast⟩ : ∃ last, records[k]? = some last :=
    ⟨_, List.getElem?_eq_getElem (by omega)⟩
  have hcurrent := h.heap k last hlast
  have hind := h.ind
  have hnode := h.currentNode
  rw [hk] at hind hnode
  have hfound : Function.update s.heap (alloc (s.ind + 1)) (some ⟨record, nullptr⟩)
      s.currentNode = some ⟨last, linkOf alloc records.length k⟩ := by
    rw [hnode, hind, Function.update_of_ne (hinj.ne (by omega)), hcurrent]
  refine ⟨⟨Function.update (Function.update s.heap (alloc (k + 2)) (some ⟨record, nullptr⟩))
    (alloc (k + 1)) (some ⟨last, alloc (k + 2)⟩), alloc 1, alloc (k + 2), k + 2⟩, ?_, ?_⟩
  · rw [ParseState.attach, if_neg (by omega)]
    simp only [setNext_of_some hfound, Option.bind_eq_bind, Option.bind_some]
    rw [if_pos (by omega), hind, hnode, h.listMaps]
  · refine ⟨by simp, by simp [hk], rfl, by simp [hk], ?_⟩
    intro i r hr
    dsimp only
    rw [List.length_append, List.length_singleton, hk]
    rcases Nat.lt_trichotomy i k with hlt | rfl | hgt
    · rw [List.getElem?_append_left (by omega)] at hr
      rw [Function.update_of_ne (hinj.ne (by omega)), Function.update_of_ne (hinj.ne (by omega)),
        h.heap i r hr, linkOf, linkOf, if_pos (by omega), if_pos (by omega)]
    · rw [List.getElem?_append_left (by omega), hlast] at hr
      obtain rfl := Option.some.inj hr
      rw [Function.update_self, linkOf, if_pos (by omega)]
    · have hlt := (List.getElem?_eq_some_iff.mp hr).1
      rw [List.length_append, List.length_singleton, hk] at hlt
      obtain rfl : i = k + 1 := by omega
      rw [List.getElem?_append_right (by omega), hk, Nat.sub_self] at hr
      obtain rfl := Option.some.inj hr
      rw [Function.update_of_ne (hinj.ne (by omega)), Function.update_self, linkOf,
        if_neg (by omega), if_neg (by omega)]

/-- The counter stays within an `int`. -/
theorem attach_ind {s' : ParseState} {tmp : Ptr} {record : ProcmapsStruct}
    (h : s.attach tmp record = some s') : s'.ind = s.ind + 1 ∧ s'.ind < 2 ^ 31 := by
  obtain ⟨heap, -, h⟩ := Option.bind_eq_some_iff.mp h
  have hind : ∀ t : ParseState, (if s.ind = 0 then
      { s with listMaps := tmp, currentNode := tmp } else s) = t → t.ind = s.ind := by
    rintro t rfl
    split <;> rfl
  rw [hind _ rfl] at h
  split at h
  · next hlt =>
    obtain rfl := Option.some.inj h
    exact ⟨rfl, hlt⟩
  · simp at h

/-- What a loop that ends has read: fewer pieces than an `int` can count, each of which fits into
`orig_path`. -/
theorem parseLoop_reads {bufs : List Line} {s' : ParseState}
    (h : parseLoop abi alloc bufs s = some s') (hs : s.ind < 2 ^ 31) :
    s.ind + bufs.length < 2 ^ 31 ∧ ∀ buf ∈ bufs, buf.length < 1024 := by
  induction bufs generalizing s with
  | nil => exact ⟨hs, fun _ hmem => absurd hmem List.not_mem_nil⟩
  | cons buf bufs ih =>
    obtain ⟨record, hrecord, h⟩ := Option.bind_eq_some_iff.mp h
    obtain ⟨t, ht, h⟩ := Option.bind_eq_some_iff.mp h
    obtain ⟨hind, hlt⟩ := attach_ind ht
    obtain ⟨hlt', hbufs⟩ := ih h hlt
    refine ⟨?_, List.forall_mem_cons.mpr ⟨length_of_parseRecord hrecord, hbufs⟩⟩
    rw [List.length_cons]
    omega

/-- The pieces are read into these records. -/
def Reads (abi : Abi) (bufs : List Line) (records : List ProcmapsStruct) : Prop :=
  List.Forall₂ (fun buf record => (parseRecord abi buf).map (·.item) = some record) bufs records

/-- The rest of the pieces. -/
theorem Built.parseLoop (hinj : Function.Injective alloc) (h : Built alloc records s)
    {bufs : List Line} {more : List ProcmapsStruct} (hreads : Reads abi bufs more)
    (hlen : records.length + more.length < 2 ^ 31) :
    ∃ s', parseLoop abi alloc bufs s = some s' ∧ Built alloc (records ++ more) s' := by
  induction hreads generalizing records s with
  | nil => exact ⟨s, rfl, by simpa using h⟩
  | @cons buf record bufs more hrecord _ ih =>
    obtain ⟨r, hr, rfl⟩ := Option.map_eq_some_iff.mp hrecord
    rw [List.length_cons] at hlen
    obtain ⟨t, ht, hbuilt⟩ := h.attach hinj (by omega) r.item
    obtain ⟨s', hs', hbuilt'⟩ := ih hbuilt (by simp; omega)
    refine ⟨s', ?_, by simpa using hbuilt'⟩
    simp only [ProcMaps.parseLoop, hr, ht, Option.bind_eq_bind, Option.bind_some, hs']

variable {heap : NodeHeap}

/-- From the second record on the list ends at the last one. -/
theorem Built.chain (hne : ∀ i, alloc i ≠ nullptr) (h : Built alloc records s)
    (htwo : 2 ≤ records.length) :
    Chain s.heap.link nullptr (alloc 1) (nodes alloc records.length) := by
  have hnodes : (nodes alloc records.length).length = records.length := by simp [nodes]
  have hfirst : (nodes alloc records.length).getD 0 nullptr = alloc 1 := by
    simp [nodes, List.getD_eq_getElem?_getD, List.getElem?_range (by omega : 0 < records.length)]
  rw [← hfirst]
  refine Chain.of_links ?_ ?_
  · simp only [nodes, List.forall_mem_map]
    exact fun i _ => hne (i + 1)
  · intro i hi
    rw [hnodes] at hi
    have hget : ∀ j, (nodes alloc records.length).getD j nullptr =
        if j < records.length then alloc (j + 1) else nullptr := by
      intro j
      by_cases hj : j < records.length <;> simp [nodes, List.getD_eq_getElem?_getD, hj]
    have hi' : (nodes alloc records.length)[i] = alloc (i + 1) := by simp [nodes]
    rw [hi', hget, NodeHeap.link, h.node hi, linkOf]
    simp only [Option.map_some, Option.getD_some]
    split
    · rfl
    · rw [if_neg (by omega)]

theorem link_of_some {p : Ptr} {node : Node} (h : heap p = some node) :
    heap.link p = node.next := by
  rw [NodeHeap.link, h]
  rfl

theorem ListWorks.holds {it : ProcmapsIterator} (h : ListWorks alloc records heap it) :
    heap.Holds it.head records := ⟨_, h.chain, h.contents⟩

theorem NodeHeap.Holds.next_nil {it : ProcmapsIterator} (h : heap.Holds it.current []) :
    pmparserNext heap it = some (nullptr, it) := by
  obtain ⟨l, hchain, hcontents⟩ := h
  obtain rfl := List.map_eq_nil_iff.mp hcontents
  generalize hcur : it.current = p at hchain
  cases hchain
  rw [pmparserNext, if_pos hcur]

theorem NodeHeap.Holds.next_cons {it : ProcmapsIterator} {record : ProcmapsStruct}
    (h : heap.Holds it.current (record :: records)) :
    ∃ p node it', pmparserNext heap it = some (p, it') ∧ p ≠ nullptr ∧ heap p = some node ∧
      node.record = record ∧ heap.Holds it'.current records := by
  obtain ⟨l, hchain, hcontents⟩ := h
  generalize hcur : it.current = p at hchain
  cases hchain with
  | nil => exact absurd hcontents (by simp)
  | @cons _ l hp hchain =>
    obtain ⟨hfirst, hrest⟩ := List.cons.inj hcontents
    obtain ⟨node, hnode, hrecord⟩ := Option.map_eq_some_iff.mp hfirst
    rw [link_of_some hnode] at hchain
    refine ⟨p, node, { it with current := node.next }, ?_, hp, hnode, hrecord, l, hchain, hrest⟩
    rw [pmparserNext, if_neg (hcur ▸ hp), hcur, hnode, Option.map_some]

/-- A walk along a list returns its nodes, and then nothing. -/
theorem nextCalls_chain {l : List Ptr} (hlive : ∀ p ∈ l, ∃ node, heap p = some node) (k : ℕ) :
    ∀ it : ProcmapsIterator, Chain heap.link nullptr it.current l →
      nextCalls heap k it = some ((List.range k).map fun i => l.getD i nullptr) := by
  induction k generalizing l with
  | zero =>
    intro it _
    rfl
  | succ k ih =>
    intro it hchain
    rw [nextCalls, List.range_succ_eq_map, List.map_cons, List.map_map]
    generalize hcur : it.current = p at hchain
    cases hchain with
    | nil =>
      have hend : pmparserNext heap it = some (nullptr, it) := if_pos hcur
      have hrest := ih (l := []) (by simp) it (by rw [hcur]; exact .nil)
      rw [hend]
      simp only [Option.bind_eq_bind, Option.bind_some, hrest]
      simp [Function.comp_def]
    | @cons _ l hp hchain =>
      rw [List.forall_mem_cons] at hlive
      obtain ⟨node, hnode⟩ := hlive.1
      have hstep : pmparserNext heap it = some (p, { it with current := node.next }) := by
        rw [pmparserNext, if_neg (by rw [hcur]; exact hp), hcur, hnode, Option.map_some]
      rw [link_of_some hnode] at hchain
      have hrest := ih hlive.2 { it with current := node.next } hchain
      rw [hstep]
      simp only [Option.bind_eq_bind, Option.bind_some, hrest]
      rfl

/-- The loop frees the nodes of a list one after the other. -/
theorem freeLoop_chain {l : List Ptr} {p nxt : Ptr} (hchain : Chain heap.link nullptr p l)
    (hlive : ∀ q ∈ l, ∃ node, heap q = some node) (hnxt : p ≠ nullptr → nxt = heap.link p) :
    freeLoop (l.length + 1) heap p nxt = some l := by
  induction l generalizing heap p nxt with
  | nil =>
    cases hchain
    rw [freeLoop, if_pos rfl]
  | cons q l ih =>
    obtain ⟨hnot, -⟩ := List.nodup_cons.mp hchain.nodup
    rw [List.forall_mem_cons] at hlive
    cases hchain with
    | cons hp hchain =>
      obtain ⟨node, hnode⟩ := hlive.1
      obtain rfl := hnxt hp
      -- what is left of the list does not go through the freed node
      set rest : NodeHeap := Function.update heap q none with hrest
      have hkept : ∀ x ∈ l, rest x = heap x := by
        intro x hx
        rw [hrest, Function.update_of_ne]
        rintro rfl
        exact hnot hx
      have hlive' : ∀ x ∈ l, ∃ node, rest x = some node := by
        intro x hx
        rw [hkept x hx]
        exact hlive.2 x hx
      have hchain' : Chain rest.link nullptr (heap.link q) l := by
        refine hchain.congr ?_
        intro x hx
        rw [NodeHeap.link, hkept x hx, NodeHeap.link]
      obtain ⟨next, hnext, hlink⟩ : ∃ next, rest.advance (heap.link q) = some next ∧
          (heap.link q ≠ nullptr → next = rest.link (heap.link q)) := by
        by_cases hnull : heap.link q = nullptr
        · exact ⟨nullptr, if_pos hnull, fun h => absurd hnull h⟩
        · obtain ⟨node', hnode'⟩ := hlive' _ (hchain'.head_mem hnull)
          refine ⟨node'.next, ?_, fun _ => (link_of_some hnode').symm⟩
          rw [NodeHeap.advance, if_neg hnull, hnode', Option.map_some]
      have hfreed := ih hchain' hlive' hlink
      rw [freeLoop, if_neg hp]
      simp only [hnode, ← hrest, hnext, Option.bind_eq_bind, Option.bind_some, List.length_cons,
        hfreed]

/-- `pmparser_parse` has built a list of two records or more: everything works. -/
theorem Built.works (hne : ∀ i, alloc i ≠ nullptr) (h : Built alloc records s)
    (htwo : 2 ≤ records.length) :
    ListWorks alloc records s.heap ⟨s.listMaps, s.listMaps⟩ := by
  have hchain := h.chain hne htwo
  have hlive : ∀ p ∈ nodes alloc records.length, ∃ node, s.heap p = some node := by
    simp only [nodes, List.forall_mem_map, List.mem_range]
    intro i hi
    exact ⟨_, h.node hi⟩
  rw [h.listMaps]
  refine ⟨hchain, ?_, fun k => nextCalls_chain hlive k _ hchain, ?_⟩
  · apply List.ext_getElem?
    intro i
    by_cases hi : i < records.length
    · simp [nodes, hi, h.node hi]
    · simp [nodes, hi]
  · refine ⟨(nodes alloc records.length).length + 1, nodes alloc records.length ++ [alloc 0], ?_,
      List.perm_append_singleton _ _⟩
    have hnode := h.node (show 0 < records.length by omega)
    have hfreed := freeLoop_chain hchain hlive fun _ => (link_of_some hnode).symm
    rw [pmparserFree, if_neg (hne 1)]
    simp only [hnode, hfreed, Option.bind_eq_bind, Option.bind_some]

/-- The record at `p` points to itself. -/
def NodeHeap.Loops (heap : NodeHeap) (p : Ptr) : Prop :=
  p ≠ nullptr ∧ ∃ node, heap p = some node ∧ node.next = p

/-- The list of a single record is a cycle. -/
theorem Built.loops (hne : ∀ i, alloc i ≠ nullptr) (h : Built alloc records s)
    (hone : records.length = 1) : s.heap.Loops s.listMaps := by
  rw [h.listMaps]
  refine ⟨hne 1, _, h.node (show 0 < records.length by omega), ?_⟩
  exact (if_neg (by omega)).trans (if_pos hone)

theorem NodeHeap.Loops.next {it : ProcmapsIterator} (h : heap.Loops it.current) :
    pmparserNext heap it = some (it.current, it) := by
  obtain ⟨hp, node, hnode, hself⟩ := h
  rw [pmparserNext, if_neg hp, hnode, Option.map_some, hself]

theorem Built.not_works (hne : ∀ i, alloc i ≠ nullptr) (h : Built alloc records s)
    (hone : records.length = 1) :
    ¬ ListWorks alloc records s.heap ⟨s.listMaps, s.listMaps⟩ := by
  intro hworks
  obtain ⟨hp, node, hnode, hself⟩ := h.loops hne hone
  have hchain := hworks.chain
  rw [hone] at hchain
  have htail := Chain.tail hchain
  rw [link_of_some hnode, hself] at htail
  simpa using htail.head_mem hp

/-- Without a record the iterator is not freed. -/
theorem not_works_nil (heap : NodeHeap) : ¬ ListWorks alloc [] heap ⟨nullptr, nullptr⟩ := by
  intro hworks
  obtain ⟨fuel, freed, hfree, hperm⟩ := hworks.free
  obtain rfl : [] = freed := Option.some.inj hfree
  simp [nodes] at hperm

/-- What `pmparser_parse` has built of one piece or more. -/
theorem pmparserParse_built (hinj : Function.Injective alloc) {text : List Char}
    (hreads : Reads abi (pieces (PROCMAPS_LINE_MAX_LENGTH - 1) text) records)
    (hpos : 0 < records.length) (hlt : records.length < 2 ^ 31) :
    ∃ s, pmparserParse abi alloc text = some (s.heap, ⟨s.listMaps, s.listMaps⟩) ∧
      Built alloc records s := by
  rw [pmparserParse]
  generalize pieces (PROCMAPS_LINE_MAX_LENGTH - 1) text = bufs at hreads ⊢
  cases hreads with
  | nil => exact absurd hpos (Nat.lt_irrefl 0)
  | @cons buf record bufs more hrecord hmore =>
    obtain ⟨r, hr, rfl⟩ := Option.map_eq_some_iff.mp hrecord
    obtain ⟨t, ht, hbuilt⟩ := @attach_first alloc r.item
    rw [List.length_cons] at hlt
    obtain ⟨s, hs, hbuilt'⟩ := hbuilt.parseLoop hinj hmore (by simp; omega)
    refine ⟨s, ?_, by simpa using hbuilt'⟩
    simp only [ProcMaps.parseLoop, hr, ht, Option.bind_eq_bind, Option.bind_some, Nat.zero_add,
      hs]

theorem pmparserParse_nil :
    pmparserParse abi alloc [] = some (fun _ => none, ⟨nullptr, nullptr⟩) := rfl

variable {entries : List (MapsEntry abi.bits)} {lines : List Line}

/-- Lines that fit into the buffer are read one by one. -/
theorem pieces_shows (hshows : Shows entries lines) (hlen : ∀ line ∈ lines, line.length < 1024) :
    pieces (PROCMAPS_LINE_MAX_LENGTH - 1) lines.flatten = lines := by
  induction hshows with
  | nil => rfl
  | @cons e line entries lines hline _ ih =>
    obtain ⟨pad, rfl⟩ := hline
    rw [List.forall_mem_cons] at hlen
    have hl := lineBody_newline e pad
    rw [line_eq, List.length_append, List.length_singleton] at hlen
    have hshort : (lineBody e pad).length < PROCMAPS_LINE_MAX_LENGTH - 1 := by
      rw [PROCMAPS_LINE_MAX_LENGTH, PATH_MAX]
      omega
    rw [List.flatten_cons, line_eq, List.append_assoc, List.singleton_append,
      pieces_append (by decide) hl, pieces_short hl hshort, ih hlen.2, List.singleton_append]

/-- A piece that is not longer than `orig_path` is there for every line, and no line is longer. -/
theorem short_of_pieces (hshows : Shows entries lines)
    (hlen : ∀ buf ∈ pieces (PROCMAPS_LINE_MAX_LENGTH - 1) lines.flatten, buf.length < 1024) :
    ∀ line ∈ lines, line.length < 1024 := by
  induction hshows with
  | nil => exact fun _ hmem => absurd hmem List.not_mem_nil
  | @cons e line entries lines hline _ ih =>
    obtain ⟨pad, rfl⟩ := hline
    have hl := lineBody_newline e pad
    have hpos : 0 < PROCMAPS_LINE_MAX_LENGTH - 1 := by decide
    obtain ⟨later, hhead⟩ := pieces_head hpos hl
    rw [List.flatten_cons, line_eq, List.append_assoc, List.singleton_append,
      pieces_append hpos hl, hhead, List.forall_mem_append, List.forall_mem_cons,
      List.length_take] at hlen
    rw [List.forall_mem_cons, line_eq]
    refine ⟨?_, ih hlen.2⟩
    have hfirst := hlen.1.1
    rw [PROCMAPS_LINE_MAX_LENGTH, PATH_MAX] at hfirst
    omega

theorem reads_shows (hshows : Shows entries lines) (hlen : ∀ line ∈ lines, line.length < 1024) :
    Reads abi lines (entries.map MapsEntry.record) := by
  induction hshows with
  | nil => exact .nil
  | @cons e line entries lines hline _ ih =>
    obtain ⟨pad, rfl⟩ := hline
    rw [List.forall_mem_cons] at hlen
    refine .cons ?_ (ih hlen.2)
    rw [parseRecord_entry e pad hlen.1, Option.map_some, item_recordOf]

/-- What `pmparser_parse` needs of a maps file that it reads to the end. -/
theorem shows_of_pmparserParse (hshows : Shows entries lines)
    {parsed : NodeHeap × ProcmapsIterator}
    (h : pmparserParse abi alloc lines.flatten = some parsed) :
    lines.length < 2 ^ 31 ∧ ∀ line ∈ lines, line.length < 1024 := by
  obtain ⟨s, hs, -⟩ := Option.bind_eq_some_iff.mp h
  obtain ⟨hlt, hbufs⟩ := parseLoop_reads hs (by decide)
  have hshort := short_of_pieces hshows hbufs
  rw [pieces_shows hshows hshort, Nat.zero_add] at hlt
  exact ⟨hlt, hshort⟩

/-- The list that `pmparser_parse` builds of one line or more. -/
theorem pmparserParse_shows (hshows : Shows entries lines) (hinj : Function.Injective alloc)
    (hlen : ∀ line ∈ lines, line.length < 1024) (hpos : 0 < lines.length)
    (hlt : lines.length < 2 ^ 31) :
    ∃ s, pmparserParse abi alloc lines.flatten = some (s.heap, ⟨s.listMaps, s.listMaps⟩) ∧
      Built alloc (entries.map MapsEntry.record) s := by
  have hlength : (entries.map MapsEntry.record).length = lines.length := by
    rw [List.length_map, hshows.length_eq]
  have hreads := reads_shows hshows hlen
  rw [← pieces_shows hshows hlen] at hreads
  exact pmparserParse_built hinj hreads (by omega) (by omega)

/-- List, walk and release are right exactly for two lines or more, as many as an `int` can
count, each of which fits into `orig_path`. -/
theorem pmparserParse_works_iff (hshows : Shows entries lines) (hinj : Function.Injective alloc)
    (hne : ∀ i, alloc i ≠ nullptr) :
    (∃ heap it, pmparserParse abi alloc lines.flatten = some (heap, it) ∧
        ListWorks alloc (entries.map MapsEntry.record) heap it) ↔
      2 ≤ lines.length ∧ lines.length < 2 ^ 31 ∧ ∀ line ∈ lines, line.length < 1024 := by
  have hlen : (entries.map MapsEntry.record).length = lines.length := by
    rw [List.length_map, hshows.length_eq]
  refine ⟨?_, ?_⟩
  · rintro ⟨heap, it, hparse, hworks⟩
    obtain ⟨hlt, hshort⟩ := shows_of_pmparserParse hshows hparse
    refine ⟨?_, hlt, hshort⟩
    rcases Nat.eq_zero_or_pos lines.length with hzero | hpos
    · obtain rfl := List.length_eq_zero_iff.mp hzero
      obtain ⟨rfl, rfl⟩ := Prod.mk.inj (Option.some.inj hparse)
      rw [hzero, List.length_eq_zero_iff] at hlen
      rw [hlen] at hworks
      exact absurd hworks (not_works_nil _)
    · obtain ⟨s, hs, hbuilt⟩ := pmparserParse_shows hshows hinj hshort hpos hlt
      rw [hs] at hparse
      obtain ⟨rfl, rfl⟩ := Prod.mk.inj (Option.some.inj hparse)
      have hone : lines.length ≠ 1 :=
        fun hone => hbuilt.not_works hne (hlen.trans hone) hworks
      omega
  · rintro ⟨htwo, hlt, hshort⟩
    obtain ⟨s, hs, hbuilt⟩ := pmparserParse_shows hshows hinj hshort (by omega) hlt
    exact ⟨_, _, hs, hbuilt.works hne (by omega)⟩

/-- Blocks at all positive addresses. -/
def blocks (i : ℕ) : Ptr := i + 1

theorem blocks_injective : Function.Injective blocks := by
  intro i j h
  change (i : ℤ) + 1 = j + 1 at h
  omega

theorem blocks_ne (i : ℕ) : blocks i ≠ nullptr := by
  change (i : ℤ) + 1 ≠ 0
  omega

theorem pmparserParse_works_iff_two :
    (∃ heap it, pmparserParse .aarch64 blocks ([longPath 1, longPath 2].map (·.line 1)).flatten =
        some (heap, it) ∧
      ListWorks blocks ([longPath 1, longPath 2].map MapsEntry.record) heap it) :=
  (pmparserParse_works_iff (shows_line [longPath 1, longPath 2] 1) blocks_injective blocks_ne).mpr
    (by decide)

/-- The list of a single line has no end. -/
theorem single_line_cyclic :
    ¬ ∃ heap it, pmparserParse .aarch64 blocks [(longPath 3).line 1].flatten = some (heap, it) ∧
      ListWorks blocks [(longPath 3).record] heap it := by
  rintro ⟨heap, it, hparse, hworks⟩
  obtain ⟨s, hs, hbuilt⟩ := pmparserParse_shows (shows_line [longPath 3] 1) blocks_injective
    (by decide) Nat.one_pos (by decide)
  rw [List.map_singleton, hparse] at hs
  obtain ⟨rfl, rfl⟩ := Prod.mk.inj (Option.some.inj hs)
  exact hbuilt.not_works blocks_ne rfl hworks

end NativeLib.ProcMaps
