import Haystack.Lib.GoMap
import Haystack.Lib.Utf8

/-!
# CJK segmentation

The text in lower case is cut along the best path through the graph of dictionary words. Runes that
the path leaves alone are collected and handed to a second segmenter, the hidden Markov model. The
maps and slices are taken from a pool and still hold what an earlier call has left in them.

The dictionary is an arbitrary automaton with outputs. Weights are values that are only compared,
by two tests about which nothing is assumed.
-/

namespace Haystack.Tokenizer

open List

/-- A finite state transducer: a transition has an output, and so has a final state. -/
structure Fst where
  State : Type
  start : State
  accept : State → UInt8 → Option (State × UInt64)
  isMatch : State → Bool × UInt64

/-- The second segmenter. It cuts a run of several runes into pieces that are not empty. -/
structure HmmCutter where
  cut : List Char → List (List Char)
  flatten_cut : ∀ buf, 1 < buf.length → (cut buf).flatten = buf
  ne_nil_of_mem_cut : ∀ buf, 1 < buf.length → ∀ piece ∈ cut buf, piece ≠ []

/-- `dagEdge`: the last index of a word with its frequency; `ok` says whether the dictionary has a
path for it. -/
structure DagEdge where
  index : ℕ
  freq : UInt64
  ok : Bool

/-- `route`: the weight of the best path from a position on and the last index of its first word. -/
structure Route (W : Type) where
  freq : W
  index : ℕ

/-- `scratchBuf` without the buffer of the dictionary. -/
structure ScratchBuf (W : Type) where
  dag : GoMap ℕ (List DagEdge)
  rs : GoMap ℕ (Route W)
  result : List Bytes
  buf : List Char

/-- `Segmenter` with what it calls. `weigh f w` is the weight of a word of frequency `f` before a
path of weight `w`. -/
structure Segmenter (W : Type) where
  fst : Fst
  hmm : HmmCutter
  lower : Char → Char
  zero : W
  weigh : UInt64 → W → W
  less : W → W → Bool
  same : W → W → Bool

namespace Fst

variable (fst : Fst)

/-- `acceptRune`: the state after the bytes of a rune and the sum of the outputs. -/
def acceptRune (a : fst.State × UInt64) (r : Char) : Option (fst.State × UInt64) :=
  (String.utf8EncodeChar r).foldlM (fun a b =>
    (fst.accept a.1 b).map fun next => (next.1, a.2 + next.2)) a

/-- The loop of `getDag` from index `i` on, with the list of edges so far and the values of the
first rune, which are entered if `i` is the first index `k`. -/
def walk (k : ℕ) : ℕ → List Char → fst.State × UInt64 → List DagEdge → UInt64 × Bool →
    List DagEdge × UInt64 × Bool
  | _, [], _, lst, first => (lst, first)
  | i, r :: rs, a, lst, first =>
    match fst.acceptRune a r with
    | none => (lst, if i = k then (0, false) else first)
    | some a' =>
      let final := (fst.isMatch a'.1).1
      let freq := a'.2 + (fst.isMatch a'.1).2
      walk k (i + 1) rs a' (if final ∧ 0 < freq then lst ++ [⟨i, freq, true⟩] else lst)
        (if i = k then (if final then freq else 0, true) else first)

/-- The edges of position `k`; `old` is what the slot has held before. -/
def edges (runes : List Char) (old : Option (List DagEdge)) (k : ℕ) : List DagEdge :=
  let lst := match old with
    | none => []
    | some lst => lst.take 0
  let found := fst.walk k k (runes.drop k) (fst.start, 0) lst (0, false)
  if found.1.length = 0 then found.1 ++ [⟨k, found.2.1, found.2.2⟩] else found.1

def getDag (runes : List Char) (dag : GoMap ℕ (List DagEdge)) : GoMap ℕ (List DagEdge) :=
  (List.range runes.length).foldl (fun dag k =>
    dag.insert k (fst.edges runes (dag.lookup k) k)) dag

/-- `findFreq`: the frequency of a word, `none` if there is no path for it. -/
def findFreq (runes : List Char) : Option UInt64 :=
  (runes.foldlM fst.acceptRune (fst.start, 0)).map fun a =>
    if (fst.isMatch a.1).1 then a.2 + (fst.isMatch a.1).2 else 0

end Fst

namespace Segmenter

variable {W : Type} (seg : Segmenter W)

/-- The route that starts with an edge. -/
def through (rs : GoMap ℕ (Route W)) (e : DagEdge) : Route W :=
  let rest := ((rs.lookup (e.index + 1)).map Route.freq).getD seg.zero
  ⟨if e.ok then seg.weigh e.freq rest else seg.weigh 1 rest, e.index⟩

/-- One edge of position `idx`. -/
def relax (idx : ℕ) (rs : GoMap ℕ (Route W)) (e : DagEdge) : GoMap ℕ (Route W) :=
  let r := seg.through rs e
  match rs.lookup idx with
  | none => rs.insert idx r
  | some v =>
    if seg.less v.freq r.freq ∨ (seg.same v.freq r.freq ∧ v.index < r.index) then rs.insert idx r
    else rs

/-- The positions from `n - 1` down to 0. -/
def calcFrom (dag : GoMap ℕ (List DagEdge)) : ℕ → GoMap ℕ (Route W) → GoMap ℕ (Route W)
  | 0, rs => rs
  | idx + 1, rs => calcFrom dag idx (((dag.lookup idx).getD []).foldl (seg.relax idx) rs)

def calcRoutes (runes : List Char) (dag : GoMap ℕ (List DagEdge)) (rs : GoMap ℕ (Route W)) :
    GoMap ℕ (Route W) :=
  let cleared := rs.keys.foldl (fun rs k => rs.erase k) rs
  seg.calcFrom dag runes.length (cleared.insert runes.length ⟨seg.zero, 0⟩)

/-- `hmm`: a run that is a word of the dictionary is cut into its runes. -/
def hmmCut (buf : List Char) (result : List Bytes) : List Bytes :=
  if (seg.fst.findFreq buf).getD 0 = 0 then result ++ (seg.hmm.cut buf).map Utf8.encode
  else result ++ buf.map fun r => Utf8.encode [r]

/-- The collected runes are cut. -/
def flush (buf : List Char) (result : List Bytes) : List Bytes :=
  if buf.length = 0 then result
  else if buf.length = 1 then result ++ [Utf8.encode buf]
  else seg.hmmCut buf result

/-- The loop of `CutDAG`, with the collected runes and the result. There is no outcome if a slice is
out of range, or if the loop has not ended after as many rounds as the first argument allows. -/
def cutLoop (runes : List Char) (routes : GoMap ℕ (Route W)) : ℕ → ℕ → List Char → List Bytes →
    Option (List Char × List Bytes)
  | 0, _, _, _ => none
  | rounds + 1, x, buf, result =>
    if x < runes.length then
      let y := ((routes.lookup x).map Route.index).getD 0 + 1
      if y < x ∨ runes.length < y then none
      else
        let frag := (runes.take y).drop x
        if y - x = 1 then cutLoop runes routes rounds y (buf ++ frag) result
        else cutLoop runes routes rounds y [] (seg.flush buf result ++ [Utf8.encode frag])
    else some (buf, result)

/-- `strings.ToLower`; a byte that is not part of a character is replaced. -/
def toLower (s : Bytes) : Bytes :=
  Utf8.encode ((Utf8.runes s).map seg.lower)

/-- `CutDAG` with the scratch buffer it has taken from the pool, and what it puts back. The loop may
take one round for each rune and one to see that there is none left. -/
def cutDAG (sb : ScratchBuf W) (str : Bytes) : Option (List Bytes × ScratchBuf W) :=
  let runes := Utf8.runes (seg.toLower str)
  let dag := seg.fst.getDag runes sb.dag
  let routes := seg.calcRoutes runes dag sb.rs
  (seg.cutLoop runes routes (runes.length + 1) 0 (sb.buf.take 0) (sb.result.take 0)).map fun out =>
    let result := seg.flush out.1 out.2
    (result, ⟨dag, routes, result, out.1⟩)

end Segmenter

/-! ### The graph -/

variable {k : ℕ}

namespace Fst

variable {fst : Fst} {runes : List Char}

/-- The walk only adds edges to positions it has seen. -/
lemma mem_walk {e : DagEdge} {a : fst.State × UInt64} {first : UInt64 × Bool} {rs : List Char}
    {i : ℕ} {lst : List DagEdge} (h : e ∈ (fst.walk k i rs a lst first).1) :
    e ∈ lst ∨ i ≤ e.index ∧ e.index < i + rs.length := by
  induction rs generalizing i a lst first with
  | nil => exact .inl h
  | cons r rs ih =>
    rw [walk] at h
    split at h
    · exact .inl h
    · rcases ih h with hmem | ⟨hle, hlt⟩
      · split at hmem
        · rcases mem_append.1 hmem with hmem | hmem
          · exact .inl hmem
          · obtain rfl := mem_singleton.1 hmem
            exact .inr ⟨le_rfl, by simp⟩
        · exact .inl hmem
      · rw [length_cons]
        exact .inr ⟨by omega, by omega⟩

/-- What a slot has held before makes no difference. -/
lemma edges_eq (old : Option (List DagEdge)) (k : ℕ) :
    fst.edges runes old k = fst.edges runes none k := by
  cases old <;> rfl

lemma edges_ne_nil (k : ℕ) : fst.edges runes none k ≠ [] := by
  rw [edges]
  split
  case isTrue => simp
  case isFalse h => exact length_pos_iff.1 (by omega)

lemma index_of_mem_edges {e : DagEdge} (hk : k < runes.length) (h : e ∈ fst.edges runes none k) :
    k ≤ e.index ∧ e.index < runes.length := by
  have hwalk : ∀ e ∈ (fst.walk k k (runes.drop k) (fst.start, 0) [] (0, false)).1,
      k ≤ e.index ∧ e.index < runes.length := by
    intro e he
    rcases mem_walk he with hnil | hindex
    · cases hnil
    · rw [length_drop] at hindex
      omega
  rw [edges] at h
  split at h
  · rcases mem_append.1 h with h | h
    · exact hwalk e h
    · obtain rfl := mem_singleton.1 h
      exact ⟨le_rfl, hk⟩
  · exact hwalk e h

lemma lookup_getDag (dag : GoMap ℕ (List DagEdge)) (hk : k < runes.length) :
    (fst.getDag runes dag).lookup k = some (fst.edges runes none k) := by
  simp only [getDag, edges_eq]
  exact GoMap.lookup_foldl_insert _ dag (mem_range.2 hk)

end Fst

namespace Segmenter

variable {W : Type} {seg : Segmenter W} {runes : List Char}

/-! ### Routes -/

/-- The routes of the positions from `k` on lead to a position of the text. -/
def Leads (rs : GoMap ℕ (Route W)) (n k : ℕ) : Prop :=
  ∀ j, k ≤ j → j < n → ∃ r, rs.lookup j = some r ∧ j ≤ r.index ∧ r.index < n

lemma lookup_relax_of_ne {idx j : ℕ} (h : j ≠ idx) (rs : GoMap ℕ (Route W)) (e : DagEdge) :
    (seg.relax idx rs e).lookup j = rs.lookup j := by
  rw [relax]
  split
  · exact AList.lookup_insert_ne h
  · split
    · exact AList.lookup_insert_ne h
    · rfl

/-- After an edge the route of its position is the old one or that edge. -/
lemma lookup_relax (seg : Segmenter W) (idx : ℕ) (rs : GoMap ℕ (Route W)) (e : DagEdge) :
    ∃ r, (seg.relax idx rs e).lookup idx = some r ∧
      (r.index = e.index ∨ rs.lookup idx = some r) := by
  rw [relax]
  split
  case h_1 => exact ⟨_, AList.lookup_insert _, .inl rfl⟩
  case h_2 v hv =>
    split
    · exact ⟨_, AList.lookup_insert _, .inl rfl⟩
    · exact ⟨v, hv, .inr hv⟩

lemma lookup_foldl_relax_of_ne {idx j : ℕ} (h : j ≠ idx) (rs : GoMap ℕ (Route W))
    (es : List DagEdge) : (es.foldl (seg.relax idx) rs).lookup j = rs.lookup j := by
  induction es generalizing rs with
  | nil => rfl
  | cons e es ih => rw [foldl_cons, ih, lookup_relax_of_ne h]

/-- After all edges of a position its route is one of them. -/
lemma lookup_foldl_relax (seg : Segmenter W) {idx : ℕ} (rs : GoMap ℕ (Route W)) (hnone : rs.lookup idx = none)
    {es : List DagEdge} (hes : es ≠ []) :
    ∃ r, (es.foldl (seg.relax idx) rs).lookup idx = some r ∧ ∃ e ∈ es, r.index = e.index := by
  induction es using reverseRecOn with
  | nil => exact absurd rfl hes
  | append_singleton es e ih =>
    rw [foldl_append, foldl_cons, foldl_nil]
    obtain ⟨r, hr, hindex | hold⟩ :=
      lookup_relax seg idx (es.foldl (seg.relax idx) rs) e
    · exact ⟨r, hr, e, by simp, hindex⟩
    · rcases eq_or_ne es [] with rfl | hne
      · exact absurd (hnone.symm.trans hold) (by simp)
      · obtain ⟨r', hr', e', he', hindex⟩ := ih hne
        obtain rfl := Option.some.inj (hold.symm.trans hr')
        exact ⟨r, hr, e', mem_append_left _ he', hindex⟩

/-- From the routes of the later positions to all routes. -/
lemma leads_calcFrom {dag : GoMap ℕ (List DagEdge)}
    (hdag : ∀ k < runes.length, dag.lookup k = some (seg.fst.edges runes none k))
    (hk : k ≤ runes.length) {rs : GoMap ℕ (Route W)} (hnone : ∀ j < k, rs.lookup j = none)
    (h : Leads rs runes.length k) : Leads (seg.calcFrom dag k rs) runes.length 0 := by
  induction k generalizing rs with
  | zero => exact h
  | succ idx ih =>
    rw [calcFrom, hdag idx (by omega), Option.getD_some]
    refine ih (by omega) ?_ ?_
    · intro j hj
      rw [lookup_foldl_relax_of_ne (by omega)]
      exact hnone j (by omega)
    · intro j hj hlt
      rcases Nat.eq_or_lt_of_le hj with rfl | hj
      · obtain ⟨r, hr, e, he, hindex⟩ := lookup_foldl_relax seg rs
          (hnone idx (Nat.lt_succ_self idx)) (Fst.edges_ne_nil idx)
        have hbounds := Fst.index_of_mem_edges hlt he
        exact ⟨r, hr, hindex ▸ hbounds.1, hindex ▸ hbounds.2⟩
      · rw [lookup_foldl_relax_of_ne (by omega)]
        exact h j hj hlt

/-- Only the edges of the positions of the text are read. -/
lemma calcFrom_congr {dag dag' : GoMap ℕ (List DagEdge)} (h : ∀ j < k, dag.lookup j = dag'.lookup j)
    (rs : GoMap ℕ (Route W)) : seg.calcFrom dag k rs = seg.calcFrom dag' k rs := by
  induction k generalizing rs with
  | zero => rfl
  | succ idx ih =>
    rw [calcFrom, calcFrom, h idx (Nat.lt_succ_self idx)]
    exact ih (fun j hj => h j (by omega)) _

lemma leads_calcRoutes (seg : Segmenter W) (runes : List Char) (dag : GoMap ℕ (List DagEdge))
    (rs : GoMap ℕ (Route W)) :
    Leads (seg.calcRoutes runes (seg.fst.getDag runes dag) rs) runes.length 0 := by
  rw [calcRoutes, GoMap.foldl_erase_keys]
  refine leads_calcFrom (fun k hk => Fst.lookup_getDag dag hk) le_rfl ?_ ?_
  · intro j hj
    rw [AList.lookup_insert_ne (by omega), AList.lookup_empty]
  · intro j hle hlt
    omega

/-- The routes do not depend on what the maps have held before. -/
lemma calcRoutes_eq (dag dag' : GoMap ℕ (List DagEdge)) (rs rs' : GoMap ℕ (Route W)) :
    seg.calcRoutes runes (seg.fst.getDag runes dag) rs =
      seg.calcRoutes runes (seg.fst.getDag runes dag') rs' := by
  rw [calcRoutes, calcRoutes, GoMap.foldl_erase_keys, GoMap.foldl_erase_keys]
  refine calcFrom_congr (fun j hj => ?_) _
  rw [Fst.lookup_getDag dag hj, Fst.lookup_getDag dag' hj]

/-! ### The cut -/

/-- Some tokens are the pieces of a text. -/
def Pieces (result : List Bytes) (text : List Char) : Prop :=
  result.flatten = Utf8.encode text ∧ ∀ token ∈ result, token ≠ []

lemma Pieces.append {r r' : List Bytes} {t t' : List Char} (h : Pieces r t) (h' : Pieces r' t') :
    Pieces (r ++ r') (t ++ t') := by
  refine ⟨by rw [flatten_append, h.1, h'.1, Utf8.encode_append], ?_⟩
  intro token htoken
  exact (mem_append.1 htoken).elim (h.2 token) (h'.2 token)

lemma pieces_map_encode (pieces : List (List Char)) (h : ∀ piece ∈ pieces, piece ≠ []) :
    Pieces (pieces.map Utf8.encode) pieces.flatten := by
  constructor
  · induction pieces with
    | nil => rfl
    | cons p ps ih =>
      rw [map_cons, flatten_cons, flatten_cons, Utf8.encode_append,
        ih fun piece hp => h piece (mem_cons_of_mem _ hp)]
  · intro token htoken
    obtain ⟨piece, hpiece, rfl⟩ := mem_map.1 htoken
    exact fun hnil => h piece hpiece (Utf8.encode_injective hnil)

lemma pieces_singleton {frag : List Char} (h : frag ≠ []) : Pieces [Utf8.encode frag] frag := by
  have hpieces := pieces_map_encode [frag] (by simpa using h)
  rwa [flatten_singleton] at hpieces

/-- The pieces of the collected runes are added. -/
lemma pieces_flush (seg : Segmenter W) (buf : List Char) {text : List Char} {result : List Bytes}
    (h : Pieces result text) :
    Pieces (seg.flush buf result) (text ++ buf) := by
  rw [flush]
  split
  case isTrue hzero =>
    obtain rfl := length_eq_zero_iff.1 hzero
    rwa [append_nil]
  case isFalse hzero =>
    split
    case isTrue => exact h.append (pieces_singleton (length_pos_iff.1 (by omega)))
    case isFalse hone =>
      have hlength : 1 < buf.length := by omega
      rw [hmmCut]
      split
      · have hcut := pieces_map_encode _ (seg.hmm.ne_nil_of_mem_cut buf hlength)
        rw [seg.hmm.flatten_cut buf hlength] at hcut
        exact h.append hcut
      · have hsingle := pieces_map_encode (buf.map fun r => [r]) (by simp)
        rw [map_map, ← flatMap_def, flatMap_singleton'] at hsingle
        exact h.append hsingle

/-- The loop ends, with the text before `x` in the pieces and the collected runes. -/
lemma cutLoop_pieces (seg : Segmenter W) {routes : GoMap ℕ (Route W)}
    (hroutes : Leads routes runes.length 0) (rounds : ℕ) {x : ℕ} {buf text : List Char}
    {result : List Bytes} (hx : x ≤ runes.length)
    (hrounds : runes.length < x + rounds) (hpieces : Pieces result text)
    (htext : text ++ buf = runes.take x) :
    ∃ out, seg.cutLoop runes routes rounds x buf result = some out ∧
      ∃ text, Pieces out.2 text ∧ text ++ out.1 = runes := by
  induction rounds generalizing x buf text result with
  | zero => omega
  | succ rounds ih =>
    rw [cutLoop]
    split
    case isFalse hlast =>
      rw [take_of_length_le (by omega)] at htext
      exact ⟨_, rfl, text, hpieces, htext⟩
    case isTrue hlt =>
      obtain ⟨r, hr, hle, hindex⟩ := hroutes x (Nat.zero_le x) hlt
      simp only [hr, Option.map_some, Option.getD_some]
      rw [if_neg (by omega)]
      have htake : runes.take x ++ (runes.take (r.index + 1)).drop x =
          runes.take (r.index + 1) := by
        conv_rhs => rw [← take_append_drop x (runes.take (r.index + 1))]
        rw [take_take, Nat.min_eq_left (by omega)]
      split
      case isTrue =>
        refine ih (by omega) (by omega) hpieces ?_
        rw [← append_assoc, htext, htake]
      case isFalse =>
        have hfrag : (runes.take (r.index + 1)).drop x ≠ [] := by
          rw [← length_pos_iff, length_drop, length_take]
          omega
        refine ih (by omega) (by omega) ((pieces_flush seg buf hpieces).append (pieces_singleton hfrag)) ?_
        rw [append_nil, htext, htake]

/-- The tokens are pieces of the text in lower case, whatever the scratch buffer has held. -/
theorem cutDAG_partitions (seg : Segmenter W) (s : Bytes) :
    ∃ tokens, (∀ sb, ∃ sb', seg.cutDAG sb s = some (tokens, sb')) ∧
      tokens.flatten = seg.toLower s ∧ ∀ token ∈ tokens, token ≠ [] := by
  have hrunes : Utf8.runes (seg.toLower s) = (Utf8.runes s).map seg.lower := Utf8.runes_encode _
  obtain ⟨out, hout, text, hpieces, htext⟩ := cutLoop_pieces seg
    (leads_calcRoutes seg (Utf8.runes (seg.toLower s)) ∅ ∅)
    ((Utf8.runes (seg.toLower s)).length + 1) (Nat.zero_le _) (by omega)
    (⟨rfl, by simp⟩ : Pieces [] []) rfl
  have hflush : Pieces (seg.flush out.1 out.2) ((Utf8.runes s).map seg.lower) := by
    have h := pieces_flush seg out.1 hpieces
    rwa [htext, hrunes] at h
  refine ⟨seg.flush out.1 out.2, fun sb => ?_, hflush.1, hflush.2⟩
  simp only [cutDAG, take_zero]
  rw [calcRoutes_eq sb.dag ∅ sb.rs ∅, hout]
  exact ⟨_, rfl⟩

/-- Every rune by itself. -/
def HmmCutter.single : HmmCutter where
  cut buf := buf.map fun r => [r]
  flatten_cut buf _ := by rw [← List.flatMap_def, List.flatMap_singleton']
  ne_nil_of_mem_cut buf _ := by simp

/-- A dictionary with the word `ab` alone; a path is the better the fewer words it has. -/
def small : Segmenter ℤ where
  fst := ⟨Bytes, [], fun a b => if (a ++ [b]).isPrefixOf (Bytes.ofAscii "ab") then
    some (a ++ [b], 0) else none, fun a => (a == Bytes.ofAscii "ab", 7)⟩
  hmm := HmmCutter.single
  lower := Char.toLower
  zero := 0
  weigh _ w := w - 1
  less v w := v < w
  same v w := v == w

-- The stale buffers hold an edge and a route that would lead out of the text.
example : (small.cutDAG ⟨AList.singleton 0 [⟨9, 1, true⟩], AList.singleton 1 ⟨5, 9⟩,
    [Bytes.ofAscii "old"], ['o']⟩ (Bytes.ofAscii "xyABz")).map Prod.fst =
      some (["x", "y", "ab", "z"].map Bytes.ofAscii) := by
  decide +kernel

end Segmenter

end Haystack.Tokenizer
