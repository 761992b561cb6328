import VpnP2p.CronJob.Refresh

/-!
# Two threads, call by call

`handle_register` and `local_ip_refresh` run in two threads that share `local_node`, and
nothing keeps one of them from running between two calls of the other. Here the scheduler
picks a thread, and this goes through its next call. What is in memory and in the infofile
then depends on nothing but the sequence of the calls.
-/

namespace VpnP2p.CronJob

open Foundation NodeInfo Util Server

/-! ## The code -/

/-- Where the one thread is in `handle_register`, with what it has in its variable. -/
inductive Receiver where
  | waiting
  | decoded (recv_node : Ptr)
  | loaded (recv_node : Ptr)
  | merged
  | saved

/-- Where the other thread is in `local_ip_refresh`. -/
inductive Timer where
  | sleeping
  | generated (current_ip_list : Ptr)
  | compared (current_ip_list : Ptr)

/-- The process, where its threads are, and the replies it has sent. -/
structure Threads extends Process where
  receiver : Receiver
  timer : Timer
  replies : List Message

/-- The next call in `handle_register`; the message is taken where there is none yet. -/
def Threads.receive (t : Threads) (msg : Register) : Result Threads :=
  match t.receiver with
  | .waiting => do
    let (h, recv_node) ← convertBufToNode t.heap msg.buf
    .ok { t with heap := h, receiver := .decoded recv_node }
  | .decoded recv_node => do
    let (h, local_node) ← file2struct t.heap t.file
    .ok { t with heap := h, localNode := local_node, receiver := .loaded recv_node }
  | .loaded recv_node => do
    let h ← nodeMerge t.heap t.localNode recv_node
    .ok { t with heap := h, receiver := .merged }
  | .merged => do
    let text ← struct2file t.heap t.localNode
    .ok { t with file := some text, receiver := .saved }
  | .saved => do
    let reply_msg ← registerReply t.toServerState
    let _ ← sendMsgOverSocket reply_msg
    .ok { t with receiver := .waiting, replies := t.replies ++ [reply_msg] }

/-- The next call in `local_ip_refresh`, on the host as it is at that moment. -/
def Threads.refresh (rand : UInt32 → Nat) (t : Threads) (host : Host) : Result Threads :=
  match t.timer with
  | .sleeping => do
    let (h, current_node, local_node_id) ← generateLocalNode rand host t.heap
    let current ← load h.nodes current_node
    .ok { t with
      heap := h, localNode := current_node, localNodeId := local_node_id
      timer := .generated current.ipList }
  | .generated current_ip_list => do
    let before ← load t.heap.nodes t.localNode
    let before_ip_list := before.ipList
    let identical ← ipListIdentical t.heap.ips current_ip_list before_ip_list
    let ips ← if identical = 0 then
        forChain id IPCell.nextIp (markIp before_ip_list) (t.heap.ips.length + 1)
          current_ip_list t.heap.ips
      else .ok t.heap.ips
    .ok { t with heap := { t.heap with ips := ips }, timer := .compared current_ip_list }
  | .compared current_ip_list => do
    let nodes ← update t.heap.nodes t.localNode (fun c => { c with ipList := current_ip_list })
    .ok { t with heap := { t.heap with nodes := nodes }, timer := .sleeping }

/-- What the scheduler picks: a thread, with what its next round is to begin with. -/
inductive Turn where
  | receiver (msg : Register)
  | timer (host : Host)

def Threads.exec (rand : UInt32 → Nat) (t : Threads) : Turn → Result Threads
  | .receiver msg => t.receive msg
  | .timer host => t.refresh rand host

/-- Five turns in a row are `handle_register`. -/
theorem exec_handleRegister (rand : UInt32 → Nat) {t : Threads} (msg : Register)
    (ht : t.receiver = .waiting) :
    (List.replicate 5 (Turn.receiver msg)).foldlM (Threads.exec rand) t = (do
      let s ← mergeAndSave t.toServerState msg.buf
      let reply_msg ← registerReply s
      let _ ← sendMsgOverSocket reply_msg
      .ok { t with toServerState := s, replies := t.replies ++ [reply_msg] }) := by
  obtain ⟨⟨s, id⟩, receiver, timer, replies⟩ := t
  cases ht
  simp only [List.replicate, List.foldlM_cons, List.foldlM_nil, Threads.exec, Threads.receive,
    mergeAndSave, bind_assoc, ok_bind, bind_pure]

/-- Three turns in a row are `local_ip_refresh`. -/
theorem exec_localIpRefresh (rand : UInt32 → Nat) {t : Threads} (host : Host)
    (ht : t.timer = .sleeping) :
    (List.replicate 3 (Turn.timer host)).foldlM (Threads.exec rand) t = (do
      let σ ← localIpRefresh rand host t.toProcess
      .ok { t with toProcess := σ }) := by
  obtain ⟨⟨s, id⟩, receiver, timer, replies⟩ := t
  cases ht
  simp only [List.replicate, List.foldlM_cons, List.foldlM_nil, Threads.exec, Threads.refresh,
    localIpRefresh, bind_assoc, ok_bind, bind_pure]
  refine bind_congr fun _ => bind_congr fun _ => bind_congr fun _ => bind_congr fun identical => ?_
  by_cases hidentical : identical = 0
  · simp only [if_pos hidentical, bind_assoc, ok_bind]
  · simp only [if_neg hidentical, bind_assoc, ok_bind]

/-! ## What the calls come to -/

/-- A call, with what it was given by the outside. -/
inductive Call where
  | decode (msg : Register)
  | load
  | merge
  | save
  | reply
  | generate (host : Host)
  | compare
  | assign

def Receiver.call (msg : Register) : Receiver → Call
  | .waiting => .decode msg
  | .decoded _ => .load
  | .loaded _ => .merge
  | .merged => .save
  | .saved => .reply

def Timer.call (host : Host) : Timer → Call
  | .sleeping => .generate host
  | .generated _ => .compare
  | .compared _ => .assign

/-- The calls of the two threads in the order in which they came. -/
inductive Threads.Run (rand : UInt32 → Nat) (t₀ : Threads) : List Call → Threads → Prop
  | start : Run rand t₀ [] t₀
  | receive {calls : List Call} {t t' : Threads} {msg : Register} : Run rand t₀ calls t →
      t.receive msg = .ok t' → Run rand t₀ (calls ++ [t.receiver.call msg]) t'
  | refresh {calls : List Call} {t t' : Threads} {host : Host} : Run rand t₀ calls t →
      t.refresh rand host = .ok t' → Run rand t₀ (calls ++ [t.timer.call host]) t'

/-- The values behind the pointers: the infofile, `local_node`, `recv_node`, the entry of the
new node, and the replies. -/
structure Values where
  file : List Node
  nodes : List Node
  message : List Node
  entry : IP
  replies : List (List Node)

/-- The IPs of the first node. -/
def headIps : List Node → List IP
  | [] => []
  | n :: _ => n.ipList

def setHead (xs : List IP) : List Node → List Node
  | [] => []
  | n :: l => { n with ipList := xs } :: l

/-- What `local_ip_refresh` makes of the one new entry. -/
def marked (before : List IP) (x : IP) : IP :=
  if Int32.ofNat 1 = Int32.ofNat before.length ∧ x.ip ∈ ipStrings before then x
  else if x.ip ∈ ipStrings before then { x with validity := 0 }
  else { x with type := unknownIP, validity := 1 }

def Values.call (rand : UInt32 → Nat) (a : Values) : Call → Values
  | .decode msg => { a with message := msg.nodes }
  | .load => { a with nodes := a.file.map Node.stripped }
  | .merge => { a with nodes := mergeNodes a.nodes a.message }
  | .save => { a with file := a.nodes }
  | .reply => { a with replies := a.replies ++ [a.nodes] }
  | .generate host => { a with
      nodes := [host.localNode (generateId rand host.time)], entry := host.ip 1 }
  | .compare => { a with entry := marked (headIps a.nodes) a.entry }
  | .assign => { a with nodes := setHead [a.entry] a.nodes }

/-- A call goes through. -/
def Call.Possible (a : Values) : Call → Prop
  | .generate host => host.Served
  | .reply => (encode a.nodes).length < bufSize
  | _ => True

/-- Nothing but the infofile is known at the start. -/
def Values.start (S : List Node) : Values := ⟨S, [], [], ⟨noString, noString, 0, 0⟩, []⟩

def Values.after (rand : UInt32 → Nat) (S : List Node) (calls : List Call) : Values :=
  calls.foldl (Values.call rand) (.start S)

@[simp] theorem Values.after_concat (rand : UInt32 → Nat) (S : List Node) (calls : List Call)
    (c : Call) : Values.after rand S (calls ++ [c]) = (Values.after rand S calls).call rand c := by
  rw [Values.after, List.foldl_append]
  rfl

end VpnP2p.CronJob
