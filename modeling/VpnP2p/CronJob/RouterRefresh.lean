import VpnP2p.CronJob.Others
import VpnP2p.Server.Dispatch
import VpnP2p.Table.ToArray

/-!
# The refresh of a route

`router_refresh` visits every IP of a node twice, once to time a regular update and once to
time a file, and keeps what it measured in a table under a pointer that it has just allocated.
The table is lost when it returns; in between, an IP that cannot be reached ends the process.
-/

namespace VpnP2p.CronJob

open Foundation NodeInfo Util Server

/-! ## node_pair.c -/

/-- `struct NodePair`; the string is that of an IP cell. -/
structure NodePair where
  fromNode : Ptr
  toNode : Ptr
  toIp : Nat
deriving DecidableEq

/-- `struct WidthAndDelay`, with a type for its `double`. -/
structure WidthAndDelay (Width : Type) where
  delay : Int32
  width : Width
deriving DecidableEq

/-- `sizeof(struct NodePair)`: three pointers. -/
def nodePairSize : Nat := 24

/-- `sizeof(struct WidthAndDelay)`: an `int`, padded, and a `double`. -/
def widthAndDelaySize : Nat := 16

/-- What `router_refresh` has in its table and on the heap. `blocks` are the addresses that
`malloc` has left; without one it returns NULL. -/
structure Routes (Width : Type) where
  table : Table.State
  pairs : List (Table.Key × NodePair)
  widths : List (Table.Key × WidthAndDelay Width)
  tmpPair : Option Table.Key
  blocks : List Table.Key

section Code

variable {Width : Type} (usable : Nat → Nat) (width : Int32 → Int32 → Width)

/-- `create_node_pair`, which allocates `sizeof(P)`, the size of a pointer. -/
def createNodePair (r : Routes Width) (pair : NodePair) :
    Result (Routes Width × Table.Key) :=
  match r.blocks with
  | [] => .error .nullDeref
  | block :: blocks =>
    if usable Table.pointerSize < nodePairSize then .error .outOfBounds
    else .ok ({ r with pairs := r.pairs ++ [(block, pair)], blocks := blocks }, block)

/-- `create_width_delay`, which allocates `sizeof(W)`, the size of a pointer. -/
def createWidthDelay (r : Routes Width) (w : WidthAndDelay Width) :
    Result (Routes Width × Table.Key) :=
  match r.blocks with
  | [] => .error .nullDeref
  | block :: blocks =>
    if usable Table.pointerSize < widthAndDelaySize then .error .outOfBounds
    else .ok ({ r with widths := r.widths ++ [(block, w)], blocks := blocks }, block)

/-! ## The code -/

/-- What becomes of a connection: whether there is a socket, whether it is connected, whether
the calls of `send` go through, what comes back, and the ticks until then. -/
structure Connection where
  opened : Bool
  connected : Bool
  sent : Bool
  reply : Socket
  duration : Int32

/-- The two connections to an IP, with what is in `msg.size` and in the buffers of the file. -/
structure Visit where
  size : Int32
  update : Connection
  bigBuf : CArray fileSize
  behind : CArray 9
  file : Connection

/-- One connection; what is done is the status that the process exits with. -/
def Connection.measure (c : Connection) (sends : Result (List Buf)) :
    Result (Foundation.Flow Int32 Int32) :=
  if ¬ c.opened then .ok (.done 1)
  else if ¬ c.connected then .ok (.done 0)
  else do
    let _ ← sends
    if ¬ c.sent then .ok (.done 1)
    else do
      let (ret, _) ← recvMsgOverSocket (.raw 0) c.reply
      if ret < 0 then .ok (.done 1) else .ok (.next c.duration)

/-- The first half of a visit. -/
def Visit.timeUpdate (v : Visit) : Result (Foundation.Flow Int32 Int32) :=
  v.update.measure (Request.regularUpdate v.size).sends

/-- The second half. -/
def Visit.timeFile (v : Visit) : Result (Foundation.Flow Int32 Int32) :=
  v.file.measure (Request.widthTest v.bigBuf v.behind).sends

/-- The body of the loop, for the IP `p`; `width` is the quotient of the two durations, in
floating point. -/
def refreshIp (h : Heap) (visit : Nat → Visit) (fromNode toNode : Ptr) (p : Nat)
    (r : Routes Width) : Result (Foundation.Flow (Routes Width) Int32) := do
  let c ← load h.ips (.addr p)
  let _ ← assigned c.ip
  match ← (visit p).timeUpdate with
  | .done status => .ok (.done status)
  | .next duration => do
    let delay := duration / 2
    let (r, pair) ← createNodePair usable r ⟨fromNode, toNode, p⟩
    let r := { r with tmpPair := some pair }
    match ← (visit p).timeFile with
    | .done status => .ok (.done status)
    | .next duration => do
      let (r, w) ← createWidthDelay usable r ⟨delay, width duration delay⟩
      let (table, _) ← Table.tablePutIn usable r.table pair w.val
      .ok (.next { r with table := table })

/-- `*(W)value`. -/
def Routes.deref (r : Routes Width) (value : Table.Value) : Result (WidthAndDelay Width) :=
  if value = 0 then .error .nullDeref
  else match r.widths.find? (fun x => x.1.val = value) with
    | none => .error .outOfBounds
    | some x => .ok x.2

/-- `router_refresh(fromNode, toNode)`, with what it prints at the end. -/
def routerRefresh (h : Heap) (visit : Nat → Visit) (blocks : List Table.Key)
    (fromNode toNode : Ptr) :
    Result (Foundation.Flow (Routes Width × WidthAndDelay Width) Int32) := do
  let c ← load h.nodes toNode
  let ip_list := c.ipList
  -- The loop is the one of `ip_list_length`.
  let length ← ipListLength h.ips ip_list
  -- The assert of `Table_new`.
  if length < 0 then .ok (.done 134)
  else do
    let table ← Table.tableNew length none none
    match ← forChainFlow (fun _ => h.ips) IPCell.nextIp
        (refreshIp usable width h visit fromNode toNode) (h.ips.length + 1) ip_list
        ⟨⟨[], table⟩, [], [], none, blocks⟩ with
    | .done status => .ok (.done status)
    | .next r => do
      let tmpPair ← assigned r.tmpPair
      let value ← Table.tableGet r.table.cells r.table.table tmpPair
      let w ← r.deref value
      .ok (.next (r, w))

/-! ## What it should come to -/

/-- A visit, apart from what it leaves in memory. -/
def Visit.survey (v : Visit) : Result (Foundation.Flow (WidthAndDelay Width) Int32) := do
  match ← v.timeUpdate with
  | .done status => .ok (.done status)
  | .next duration => do
    let delay := duration / 2
    match ← v.timeFile with
    | .done status => .ok (.done status)
    | .next duration => .ok (.next ⟨delay, width duration delay⟩)

def surveyIp (visit : Nat → Visit) (p : Nat) (ws : List (WidthAndDelay Width)) :
    Result (Foundation.Flow (List (WidthAndDelay Width)) Int32) := do
  match ← (visit p).survey width with
  | .done status => .ok (.done status)
  | .next w => .ok (.next (ws ++ [w]))

/-- The IPs are visited one after the other, up to one that ends the process. -/
def survey (visit : Nat → Visit) (as : List Nat) :
    Result (Foundation.Flow (List (WidthAndDelay Width)) Int32) :=
  foldFlow (surveyIp width visit) as []

end Code

/-- What is kept of a visit: the IP, the two addresses, and what was measured. -/
structure Entry (Width : Type) where
  ip : Nat
  pair : Table.Key
  place : Table.Key
  measured : WidthAndDelay Width

section Keeping

variable {Width : Type}

/-- The table finds under each pair what was measured for it, and nothing else. -/
structure Routes.Keeps (r : Routes Width) (fromNode toNode : Ptr) (es : List (Entry Width)) :
    Prop where
  pairs : r.pairs = es.map (fun e => (e.pair, ⟨fromNode, toNode, e.ip⟩))
  found : ∀ e ∈ es, ∃ value, Table.tableGet r.table.cells r.table.table e.pair = .ok value ∧
    r.deref value = .ok e.measured
  only : ∀ key, key ∉ es.map Entry.pair →
    Table.tableGet r.table.cells r.table.table key = .ok 0
  length : Table.tableLength r.table.table = Int32.ofNat es.length

/-- After visits to the IPs `as` that measured `ws`, what is in the table and what is printed. -/
structure Routed (fromNode toNode : Ptr) (as : List Nat) (r : Routes Width)
    (w : WidthAndDelay Width) (ws : List (WidthAndDelay Width)) : Prop where
  kept : ∃ es, r.Keeps fromNode toNode es ∧ es.map Entry.ip = as ∧ es.map Entry.measured = ws
  printed : ws.getLast? = some w

/-- What the loop keeps: `blocks` were there at the beginning. -/
structure Keeping (fromNode toNode : Ptr) (blocks : List Table.Key) (r : Routes Width)
    (es : List (Entry Width)) : Prop where
  pairs : r.pairs = es.map (fun e => (e.pair, ⟨fromNode, toNode, e.ip⟩))
  widths : r.widths = es.map (fun e => (e.place, e.measured))
  tmpPair : r.tmpPair = es.getLast?.map Entry.pair
  blocks : blocks = es.flatMap (fun e => [e.pair, e.place]) ++ r.blocks
  table : ∃ bs, Table.Stands Table.compatible_atoms r.table bs ∧
    bs.flatten.length = es.length ∧ ∀ key value,
      (mapOf bs.flatten).lookup (Table.classOf Table.compatible_atoms key) = some value ↔
        ∃ e ∈ es, e.pair = key ∧ e.place.val = value

/-! ## One visit -/

section Visits

variable {usable : Nat → Nat} {width : Int32 → Int32 → Width} {h : Heap} {visit : Nat → Visit}
  {fromNode toNode : Ptr} {p : Nat} {blocks rest : List Table.Key} {block place : Table.Key}
  {r : Routes Width} {es : List (Entry Width)}

/-- With two blocks that have room, a visit is its survey, and then the `Table_put`. -/
theorem refreshIp_eq (hroom : nodePairSize ≤ usable Table.pointerSize)
    (hp : ∃ c x, h.ips[p]? = some c ∧ c.Holds x) (hblocks : r.blocks = block :: place :: rest) :
    refreshIp usable width h visit fromNode toNode p r = (do
      match ← (visit p).survey width with
      | .done status => .ok (.done status)
      | .next w => do
        let (table, _) ← Table.tablePutIn usable r.table block place.val
        .ok (.next ⟨table, r.pairs ++ [(block, ⟨fromNode, toNode, p⟩)], r.widths ++ [(place, w)],
          some block, rest⟩)) := by
  obtain ⟨c, x, hc, hx⟩ := hp
  obtain ⟨table, pairs, widths, tmpPair, _⟩ := r
  cases hblocks
  have hsize : ¬ usable Table.pointerSize < nodePairSize := Nat.not_lt.mpr hroom
  have hsize' : ¬ usable Table.pointerSize < widthAndDelaySize := by
    unfold nodePairSize at hroom
    unfold widthAndDelaySize
    omega
  rw [refreshIp, load_addr hc, ok_bind, hx.ip, assigned_some, ok_bind, Visit.survey]
  match (visit p).timeUpdate with
  | .error e => rfl
  | .ok (.done status) => rfl
  | .ok (.next duration) =>
    simp only [ok_bind, createNodePair, if_neg hsize]
    match (visit p).timeFile with
    | .error e => rfl
    | .ok (.done status) => rfl
    | .ok (.next duration) => simp only [ok_bind, createWidthDelay, if_neg hsize']

/-- The addresses that were used are all different, and not those that are left. -/
theorem Keeping.nodup (hK : Keeping fromNode toNode blocks r es) (hnodup : blocks.Nodup) :
    (es.map Entry.pair).Nodup ∧ (es.map Entry.place).Nodup ∧
      ∀ block ∈ r.blocks, block ∉ es.map Entry.pair := by
  have hpairs : ∀ es : List (Entry Width),
      (es.map Entry.pair).Sublist (es.flatMap (fun e => [e.pair, e.place])) := by
    intro es
    induction es with
    | nil => exact .slnil
    | cons e es ih => exact (ih.cons e.place).cons_cons e.pair
  have hplaces : ∀ es : List (Entry Width),
      (es.map Entry.place).Sublist (es.flatMap (fun e => [e.pair, e.place])) := by
    intro es
    induction es with
    | nil => exact .slnil
    | cons e es ih => exact (ih.cons_cons e.place).cons e.pair
  rw [hK.blocks, List.nodup_append] at hnodup
  refine ⟨hnodup.1.sublist (hpairs es), hnodup.1.sublist (hplaces es), fun block hblock hmem => ?_⟩
  exact hnodup.2.2 block ((hpairs es).subset hmem) block hblock rfl

theorem classOf_inj {key key' : Table.Key} : Table.classOf Table.compatible_atoms key =
    Table.classOf Table.compatible_atoms key' ↔ key = key' := by
  constructor
  · intro heq
    have hcmp : Table.cmpatom key key' = 0 := Quotient.exact heq
    by_contra hne
    rw [Table.cmpatom, if_pos hne] at hcmp
    exact absurd hcmp (by decide)
  · rintro rfl
    rfl

/-- A pair that has just been allocated gets a binding of its own. -/
theorem Keeping.put (hK : Keeping fromNode toNode blocks r es) (hnodup : blocks.Nodup)
    (hroom : nodePairSize ≤ usable Table.pointerSize) (hblocks : r.blocks = block :: place :: rest)
    (w : WidthAndDelay Width) : ∃ table value,
      Table.tablePutIn usable r.table block place.val = .ok (table, value) ∧
      Keeping fromNode toNode blocks ⟨table, r.pairs ++ [(block, ⟨fromNode, toNode, p⟩)],
        r.widths ++ [(place, w)], some block, rest⟩ (es ++ [⟨p, block, place, w⟩]) := by
  obtain ⟨bs, hS, hlen, hlookup⟩ := hK.table
  have hput : Table.tablePutIn usable r.table block place.val =
      Table.tablePut r.table block place.val := by
    have hexec : Table.Call.execIn usable r.table (.put block place.val) = _ :=
      Table.execIn_eq hS (.inl hroom)
    exact hexec
  obtain ⟨table, bs', hrun, hleaves⟩ := hS.put block place.val
  have hnew : ∀ e ∈ es, e.pair ≠ block := by
    intro e he heq
    exact (hK.nodup hnodup).2.2 block (by simp [hblocks]) (List.mem_map.mpr ⟨e, he, heq⟩)
  have hfresh : Table.classOf Table.compatible_atoms block ∉ mapOf bs.flatten := by
    rw [← Finmap.lookup_eq_none, Option.eq_none_iff_forall_ne_some]
    intro value hvalue
    obtain ⟨e, he, heq, -⟩ := (hlookup block value).mp hvalue
    exact hnew e he heq
  refine ⟨table, _, hput.trans hrun, ?_⟩
  exact {
    pairs := by rw [List.map_append, ← hK.pairs]; rfl
    widths := by rw [List.map_append, ← hK.widths]; rfl
    tmpPair := by rw [List.getLast?_append]; rfl
    blocks := by
      have hall := hK.blocks
      rw [hblocks] at hall
      rw [hall, List.flatMap_append, List.append_assoc]
      rfl
    table := by
      refine ⟨bs', hleaves.stands, ?_, fun key value => ?_⟩
      · have hcard := card_insert hfresh place.val
        rw [← hleaves.map, card_mapOf hleaves.stands.spread.apart,
          card_mapOf hS.spread.apart] at hcard
        rw [hcard, hlen, List.length_append]
        rfl
      · rw [hleaves.map]
        by_cases hkey : key = block
        · subst hkey
          rw [Finmap.lookup_insert]
          constructor
          · intro h
            cases h
            exact ⟨_, List.mem_append_right _ (List.mem_singleton_self _), rfl, rfl⟩
          · rintro ⟨e, he, heq, rfl⟩
            rcases List.mem_append.mp he with he | he
            · exact absurd heq (hnew e he)
            · rw [List.mem_singleton.mp he]
        · rw [Finmap.lookup_insert_of_ne _ (fun heq => hkey (classOf_inj.mp heq)), hlookup]
          constructor
          · rintro ⟨e, he, heq⟩
            exact ⟨e, List.mem_append_left _ he, heq⟩
          · rintro ⟨e, he, heq, hvalue⟩
            rcases List.mem_append.mp he with he | he
            · exact ⟨e, he, heq, hvalue⟩
            · rw [List.mem_singleton.mp he] at heq
              exact absurd heq.symm hkey }

/-- A pointer into the block of a `struct WidthAndDelay` leads to what was put there. -/
theorem Keeping.deref (hK : Keeping fromNode toNode blocks r es) (hnodup : blocks.Nodup)
    {e : Entry Width} (he : e ∈ es) : r.deref e.place.val = .ok e.measured := by
  have hfind : ∀ es : List (Entry Width), (es.map Entry.place).Nodup → e ∈ es →
      (es.map (fun e => (e.place, e.measured))).find? (fun x => x.1.val = e.place.val) =
        some (e.place, e.measured) := by
    intro es hes he
    induction es with
    | nil => cases he
    | cons d es ih =>
      obtain ⟨hd, hes⟩ := List.nodup_cons.mp hes
      rw [List.map_cons, List.find?_cons]
      rcases List.mem_cons.mp he with rfl | he
      · simp
      · have hne : d.place.val ≠ e.place.val := by
          intro heq
          exact hd (List.mem_map.mpr ⟨e, he, (Subtype.ext heq).symm⟩)
        simp only [hne, decide_false]
        exact ih hes he
  rw [Routes.deref, if_neg e.place.property, hK.widths, hfind es (hK.nodup hnodup).2.1 he]

theorem Keeping.get (hK : Keeping fromNode toNode blocks r es) {e : Entry Width} (he : e ∈ es) :
    Table.tableGet r.table.cells r.table.table e.pair = .ok e.place.val := by
  obtain ⟨bs, hS, -, hlookup⟩ := hK.table
  rw [hS.get, (hlookup e.pair e.place.val).mpr ⟨e, he, rfl, rfl⟩, Option.getD_some]

theorem Keeping.keeps (hK : Keeping fromNode toNode blocks r es) (hnodup : blocks.Nodup) :
    r.Keeps fromNode toNode es where
  pairs := hK.pairs
  found := fun e he => ⟨e.place.val, hK.get he, hK.deref hnodup he⟩
  only := by
    intro key hkey
    obtain ⟨bs, hS, -, hlookup⟩ := hK.table
    have hnone : (mapOf bs.flatten).lookup (Table.classOf Table.compatible_atoms key) = none := by
      rw [Option.eq_none_iff_forall_ne_some]
      intro value hvalue
      obtain ⟨e, he, heq, -⟩ := (hlookup key value).mp hvalue
      exact hkey (List.mem_map.mpr ⟨e, he, heq⟩)
    rw [hS.get, hnone, Option.getD_none]
  length := by
    obtain ⟨bs, hS, hlen, -⟩ := hK.table
    rw [← hlen]
    exact hS.length

end Visits

/-! ## The whole list -/

section Lists

variable {usable : Nat → Nat} {width : Int32 → Int32 → Width} {h : Heap} {visit : Nat → Visit}
  {fromNode toNode : Ptr} {blocks : List Table.Key} {as : List Nat}

/-- The entries so far are those of the IPs visited, and there are two blocks for each other. -/
structure Visited (h : Heap) (fromNode toNode : Ptr) (blocks : List Table.Key) (as rest : List Nat)
    (r : Routes Width) (ws : List (WidthAndDelay Width)) : Prop where
  keeping : ∃ es, Keeping fromNode toNode blocks r es ∧ es.map Entry.ip ++ rest = as ∧
    es.map Entry.measured = ws
  enough : 2 * rest.length ≤ r.blocks.length
  cells : ∀ a ∈ rest, ∃ c x, h.ips[a]? = some c ∧ c.Holds x

theorem Visited.step (hroom : nodePairSize ≤ usable Table.pointerSize) (hnodup : blocks.Nodup)
    {a : Nat} {rest : List Nat} {r : Routes Width} {ws : List (WidthAndDelay Width)}
    (hV : Visited h fromNode toNode blocks as (a :: rest) r ws) :
    SameEnd (Visited h fromNode toNode blocks as rest)
      (refreshIp usable width h visit fromNode toNode a r) (surveyIp width visit a ws) := by
  obtain ⟨⟨es, hK, has, hws⟩, henough, hcells⟩ := hV
  obtain ⟨hcell, hcells⟩ := List.forall_mem_cons.mp hcells
  obtain ⟨block, place, left, hblocks, hleft⟩ : ∃ block place left,
      r.blocks = block :: place :: left ∧ 2 * rest.length ≤ left.length := by
    rw [List.length_cons] at henough
    match hcase : r.blocks with
    | [] => rw [hcase] at henough; simp at henough
    | [_] => rw [hcase] at henough; simp at henough; omega
    | block :: place :: left =>
      rw [hcase, List.length_cons, List.length_cons] at henough
      exact ⟨block, place, left, rfl, by omega⟩
  rw [refreshIp_eq hroom hcell hblocks, surveyIp]
  match (visit a).survey width with
  | .error e => rfl
  | .ok (.done status) => rfl
  | .ok (.next w) =>
    obtain ⟨table, value, hput, hK'⟩ := hK.put (p := a) hnodup hroom hblocks w
    simp only [ok_bind, hput]
    refine ⟨⟨_, hK', ?_, ?_⟩, hleft, hcells⟩
    · rw [List.map_append, List.append_assoc]
      exact has
    · rw [List.map_append, hws]
      rfl

/-- `router_refresh` ends as the survey of the IPs does, and has what it measured in its table,
one binding for every IP; it prints what was measured last. -/
theorem routerRefresh_surveys {c : NodeCell} {xs : List IP} (hc : load h.nodes toNode = .ok c)
    (hlinks : Seg IPCell.nextIp h.ips c.ipList as .null)
    (hcont : Contents IPCell.Holds h.ips as xs) (hips : as ≠ []) (hcount : as.length < 2 ^ 31)
    (hroom : nodePairSize ≤ usable Table.pointerSize) (hnodup : blocks.Nodup)
    (henough : 2 * as.length ≤ blocks.length) :
    SameEnd (fun x => Routed fromNode toNode as x.1 x.2)
      (routerRefresh usable width h visit blocks fromNode toNode) (survey width visit as) := by
  have hlength := ipListLength_eq ⟨as, hlinks, hcont⟩
  rw [← hcont.length_eq] at hlength
  have hpos : ¬ Int32.ofNat as.length < 0 := by
    rw [Int32.lt_iff_toInt_lt, Int32.toInt_ofNat_of_lt hcount, Int32.toInt_zero]
    omega
  obtain ⟨table, n, hnew, hS⟩ := Table.tableNew_stands (Int32.ofNat as.length)
    (show Table.Compatible ((none : Option _).getD Table.cmpatom)
      ((none : Option _).getD Table.hashatom) from Table.compatible_atoms) []
  have hstart : Visited h fromNode toNode blocks as as
      (⟨⟨[], table⟩, [], [], none, blocks⟩ : Routes Width) [] := by
    refine ⟨⟨[], ⟨rfl, rfl, rfl, rfl, _, hS, ?_, fun key value => ?_⟩, rfl, rfl⟩, henough,
      fun a ha => ?_⟩
    · rw [List.flatten_replicate_nil]
      rfl
    · rw [Table.mapOf_replicate]
      simp
    · obtain ⟨x, -, c, hc, hx⟩ := hcont.mem_left ha
      exact ⟨c, x, hc, hx⟩
  have hloop : SameEnd _ (foldFlow (refreshIp usable width h visit fromNode toNode) as _)
      (foldFlow (surveyIp width visit) as []) :=
    foldFlow_simulation (Visited h fromNode toNode blocks as)
      (fun a rest r ws hV => hV.step hroom hnodup) hstart
  rw [survey, routerRefresh, hc, ok_bind]
  simp only [hlength, ok_bind, if_neg hpos, hnew,
    forChainFlow_read_eq_foldFlow hlinks (Nat.lt_succ_of_le hlinks.length_le)]
  generalize foldFlow (refreshIp usable width h visit fromNode toNode) as _ = x at hloop ⊢
  generalize foldFlow (surveyIp width visit) as [] = y at hloop ⊢
  match x, y, hloop with
  | .error _, .error _, heq => exact heq
  | .ok (.done _), .ok (.done _), heq => exact heq
  | .ok (.next r), .ok (.next ws), hV =>
    obtain ⟨⟨es, hK, has, hws⟩, -, -⟩ := hV
    rw [List.append_nil] at has
    obtain ⟨es', e, rfl⟩ : ∃ es' e, es = es' ++ [e] :=
      List.eq_nil_or_concat' es |>.resolve_left (fun hnil => hips (by rw [← has, hnil]; rfl))
    have hlast : e ∈ es' ++ [e] := List.mem_append_right _ (List.mem_singleton_self _)
    have htmp : r.tmpPair = some e.pair := by rw [hK.tmpPair, List.getLast?_concat]; rfl
    simp only [ok_bind, htmp, assigned_some, hK.get hlast, hK.deref hnodup hlast]
    exact ⟨⟨_, hK.keeps hnodup, has, hws⟩, by rw [← hws, List.map_append]; simp⟩

end Lists

end Keeping

/-- A connection over which `reply` comes back. -/
def sampleConnection (reply : Socket) (duration : Int32) : Connection :=
  ⟨true, true, true, reply, duration⟩

def sampleVisiting (reply : Socket) : Visit :=
  ⟨15, sampleConnection reply 10, .raw fileSize, .raw 9, sampleConnection reply 30⟩

def sampleRoute : Heap := (Heap.empty.alloc (sampleNodes [123])).1

theorem measure_next {c : Connection} {sends : Result (List Buf)} {frame : List Buf}
    {reply_msg : Message} (hopened : c.opened) (hconnected : c.connected) (hsent : c.sent)
    (hsends : sends = .ok frame)
    (hrecv : recvMsgOverSocket (.raw 0) c.reply = .ok (0, reply_msg)) :
    c.measure sends = .ok (.next c.duration) := by
  rw [Connection.measure, if_neg (not_not.mpr hopened), if_neg (not_not.mpr hconnected), hsends,
    ok_bind, if_neg (not_not.mpr hsent), hrecv]
  rfl

/-- A peer whose replies have a shorter name; what is printed is the delay, 5, and the
durations that the width is computed from. -/
theorem routerRefresh_surveys_sample : ∃ reply r,
    survey (fun d e => (d, e)) (fun _ => sampleVisiting reply) [0] = .ok (.next [⟨5, 30, 5⟩]) ∧
    routerRefresh (max 24) (fun d e => (d, e)) sampleRoute (fun _ => sampleVisiting reply)
      (Table.sampleKeys 2) .null (.addr 0) = .ok (.next (r, ⟨5, 30, 5⟩)) := by
  obtain ⟨sends, hsends, -⟩ :=
    (replies_regularUpdate (s := sampleServer) 15).mpr ⟨by decide, rfl, rfl⟩
  have hcarries := carries_echo (t := Util.register) (by decide) (by decide)
  obtain ⟨frame, m', -, hrecv, -⟩ := roundTrips_short hcarries (by decide) (by decide) (.raw 0)
  have hupdate : (sampleVisiting (.whole frame)).timeUpdate = .ok (.next 10) :=
    measure_next rfl rfl rfl hsends hrecv
  have hfile : (sampleVisiting (.whole frame)).timeFile = .ok (.next 30) :=
    measure_next rfl rfl rfl rfl hrecv
  have hsurvey : survey (fun d e => (d, e)) (fun _ => sampleVisiting (.whole frame)) [0] =
      .ok (.next [⟨5, 30, 5⟩]) := by
    simp only [survey, foldFlow, surveyIp, Visit.survey, hupdate, hfile, ok_bind]
    rfl
  have hcell : sampleRoute.ips[0]? = some ⟨some sampleHere, some clientIP, some 1, some 1, .null⟩ :=
    rfl
  have hnode : load sampleRoute.nodes (.addr 0) =
      .ok ⟨some 123, some 1, some 1, .addr 0, .null⟩ := rfl
  have hips : Contents IPCell.Holds sampleRoute.ips [0] sampleNode.ipList :=
    .cons ⟨_, hcell, rfl, rfl, rfl, rfl⟩ .nil
  have hrefresh : SameEnd _ (routerRefresh (max 24) (fun d e => (d, e)) sampleRoute
        (fun _ => sampleVisiting (.whole frame)) (Table.sampleKeys 2) .null (.addr 0))
      (survey (fun d e => (d, e)) (fun _ => sampleVisiting (.whole frame)) [0]) :=
    routerRefresh_surveys hnode ⟨rfl, _, hcell, rfl⟩ hips (List.cons_ne_nil _ _) (by decide)
      (by decide) (by decide) (by decide)
  obtain ⟨⟨r, w⟩, hrun⟩ := hrefresh.next_iff.mpr ⟨_, hsurvey⟩
  rw [hrun, hsurvey] at hrefresh
  obtain rfl : ⟨5, 30, 5⟩ = w := Option.some.inj hrefresh.printed
  exact ⟨.whole frame, r, hsurvey, hrun⟩

end VpnP2p.CronJob
