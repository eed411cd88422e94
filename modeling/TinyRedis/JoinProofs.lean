import TinyRedis.GoStringProofs

/-!
# Joining a cluster through a follower

    A node joins by posting its id and Raft address to the HTTP join address
    of a member.  The leader adds it as a voter; a follower answers with a
    temporary redirect to `http://<leader>/join`, the leader's address also in
    the `X-Raft-Leader` header and in the body, and `join` tries what it is
    told next.

    Every member has two addresses, its HTTP join address and its Raft
    transport address.  The follower only knows the second one of its leader,
    and writes it where the first is read.

    Raft (`addVoter`, `leaderWithID`), package `net/url` and the network are
    parameters; the HTTP client's redirects are modelled as Go has them.
-/

namespace TinyJoin

open GoString

/-- `httpJoinPath`. -/
def httpJoinPath : Bytes := ascii "/join"

/-! ## The member's side -/

/-- An error of the Raft library, and whether it is `raft.ErrNotLeader`. -/
structure RaftErr where
  text : Bytes
  notLeader : Bool

/-- `raft.ErrNotLeader`. -/
def errNotLeader : RaftErr := ⟨ascii "node is not the leader", true⟩

/-- A member: its two addresses, what its Raft answers to `AddVoter(id, addr)`
    (nothing is success), and the address `LeaderWithID` gives. -/
structure Node where
  httpAddr : Bytes
  raftAddr : Bytes
  addVoter : Bytes → Bytes → Option RaftErr
  leaderWithID : Bytes

inductive Method where
  | get
  | post
  deriving DecidableEq

/-- A request: its method and the form values `id` and `addr`, or nothing when
    the form does not parse. -/
structure Request where
  method : Method
  form : Option (Bytes × Bytes)

/-- A response, a missing header being empty as in `Header.Get`. -/
structure Response where
  status : Nat
  xRaftLeader : Bytes
  location : Bytes
  body : Bytes

/-- `http.Error`. -/
def httpError (text : Bytes) (code : Nat) : Response := ⟨code, [], [], text ++ ascii "\n"⟩

/-- `http.Error` after the two headers have been set. -/
def notLeaderAnswer (leaderAddr : Bytes) : Response :=
  let r := httpError (ascii "not leader (leader=" ++ leaderAddr ++ ascii ")") 307
  if leaderAddr = [] then r
  else
    { r with
      xRaftLeader := leaderAddr
      location := ascii "http://" ++ leaderAddr ++ httpJoinPath }

section Join

variable [UnicodeTables]

/-- `strings.Contains`. -/
def contains (s sub : Bytes) : Bool := (index s sub).isSome

/-- `Node.handleJoin`. -/
def handleJoin (n : Node) (r : Request) : Response :=
  if r.method ≠ .post then httpError (ascii "method not allowed") 405
  else
    match r.form with
    | none => httpError (ascii "invalid form") 400
    | some (nodeID, addr) =>
      if nodeID = [] ∨ addr = [] then httpError (ascii "missing id or addr") 400
      else
        match n.addVoter nodeID addr with
        | none => ⟨200, [], [], ascii "ok"⟩
        | some err =>
          let lower := toLower err.text
          if contains lower (ascii "exists") ∨ contains lower (ascii "known peer") then
            ⟨200, [], [], ascii "ok"⟩
          else if err.notLeader ∨ contains lower (ascii "not leader") then
            notLeaderAnswer (if n.leaderWithID = [] then [] else trimSpace n.leaderWithID)
          else httpError err.text 500

/-! ## The network and the HTTP client -/

/-- A URL as `net/url` reads it. -/
structure Url where
  scheme : Bytes
  host : Bytes
  path : Bytes
  deriving DecidableEq

/-- `url.Parse`, `URL.String` and `URL.Parse` (a reference read at a URL). -/
structure UrlPackage where
  parse : Bytes → Option Url
  string : Url → Bytes
  resolve : Url → Bytes → Option Url

/-- The network: the member whose join server listens at a host, and what
    anything else answers (nothing is a failed request). -/
structure Net where
  joinServer : Bytes → Option Node
  other : Request → Url → Option Response

/-- One request and its response. -/
def Net.roundTrip (net : Net) (r : Request) (u : Url) : Option Response :=
  match (if u.scheme = ascii "http" ∧ u.path = httpJoinPath then net.joinServer u.host
    else none) with
  | some n => some (handleJoin n r)
  | none => net.other r u

/-- `redirectBehavior`: the method of the next request.  The request's body
    can be read again, so 307 and 308 keep it. -/
def redirectBehavior (m : Method) (status : Nat) : Option Method :=
  if status = 301 ∨ status = 302 ∨ status = 303 then some .get
  else if status = 307 ∨ status = 308 then some m
  else none

/-- `Client.Do` with so many redirects left: the URLs requested, and the
    response or a failure.  A redirect without a `Location` is the response. -/
def clientDo (U : UrlPackage) (net : Net) : Nat → Request → Url → List Url × Option Response
  | left, r, u =>
    match net.roundTrip r u with
    | none => ([u], none)
    | some resp =>
      match redirectBehavior r.method resp.status with
      | none => ([u], some resp)
      | some m =>
        if resp.location = [] then ([u], some resp)
        else
          match U.resolve u resp.location, left with
          | some u', left + 1 =>
            let rest := clientDo U net left
              ⟨m, if m = r.method then r.form else some ([], [])⟩ u'
            (u :: rest.1, rest.2)
          | _, _ => ([u], none)

/-- `Client.Do`: the tenth redirect is refused. -/
def Net.send (U : UrlPackage) (net : Net) (r : Request) (u : Url) : List Url × Option Response :=
  clientDo U net 9 r u

/-! ## The joining node's side -/

/-- `parseLeaderHint`; nothing is the panic of a slice past the body's end
    (lower case can be longer than the body). -/
def parseLeaderHint (resp : Option Response) (body : Bytes) : Option Bytes :=
  let hint := match resp with
    | some r => trimSpace r.xRaftLeader
    | none => []
  let loc := match resp with
    | some r => trimSpace r.location
    | none => []
  if hint ≠ [] then some hint
  else if loc ≠ [] then some (trimSuffix loc httpJoinPath)
  else if body = [] then some []
  else
    match index (toLower body) (ascii "leader") with
    | none => some []
    | some idx =>
      if body.length < idx then none
      else
        let suffix := body.drop idx
        let value :=
          match indexAny suffix (ascii "=:") with
          | some sep => if sep + 1 < suffix.length then suffix.drop (sep + 1) else suffix
          | none => suffix
        let word := (trimLeft value (ascii " \t")).takeWhile
          fun c => !(ascii "),; \n\r").contains c
        some (trim word (ascii "\""))

/-- `normalizeJoinAddr`. -/
def normalizeJoinAddr (addr : Bytes) : Bytes :=
  let addr := trimSpace addr
  if addr = [] then []
  else
    let addr := trimSuffix addr (ascii "/")
    if hasPrefix addr (ascii "http://") then trimPrefix addr (ascii "http://")
    else if hasPrefix addr (ascii "https://") then trimPrefix addr (ascii "https://")
    else addr

/-- `buildJoinURL`. -/
def buildJoinURL (U : UrlPackage) (addr : Bytes) : Option Bytes :=
  let addr := trimSpace addr
  if addr = [] then none
  else if hasPrefix addr (ascii "http://") ∨ hasPrefix addr (ascii "https://") then
    (U.parse addr).map fun u =>
      if u.path = [] ∨ u.path = ascii "/" then U.string { u with path := httpJoinPath }
      else U.string { u with path := trimSuffix u.path (ascii "/") ++ httpJoinPath }
  else some (ascii "http://" ++ addr ++ httpJoinPath)

/-- The errors of `joinOnce` and `join`. -/
inductive JoinErr where
  | invalidAddr (addr : Bytes)
  | buildRequest
  | requestFailed (addr : Bytes)
  | rejected (addr : Bytes) (status : Nat) (body : Bytes)
  | noTargets
  deriving DecidableEq

/-- What `joinOnce` returns: the address it joined, or a hint and an error. -/
inductive Answer where
  | joined (hint : Bytes)
  | refused (hint : Bytes) (err : JoinErr)
  | panicked

/-- `Node.joinOnce`, with the URLs it requested. -/
def joinOnce (U : UrlPackage) (net : Net) (nodeID raftAddr joinAddr : Bytes) :
    List Url × Answer :=
  match buildJoinURL U joinAddr with
  | none => ([], .refused [] (.invalidAddr joinAddr))
  | some joinURL =>
    match U.parse joinURL with
    | none => ([], .refused [] .buildRequest)
    | some u =>
      let sent := net.send U ⟨.post, some (nodeID, raftAddr)⟩ u
      match sent.2 with
      | none => (sent.1, .refused [] (.requestFailed joinAddr))
      | some resp =>
        if resp.status = 200 then (sent.1, .joined (trimSpace joinAddr))
        else
          let body := trimSpace resp.body
          match parseLeaderHint (some resp) body with
          | none => (sent.1, .panicked)
          | some hint => (sent.1, .refused hint (.rejected joinAddr resp.status body))

/-- How `join` ends. -/
inductive JoinEnd where
  /-- success; the address is kept as the leader's, nothing when no target was given -/
  | joined (leaderAddr : Option Bytes)
  | failed (err : JoinErr)
  | panicked
  /-- the targets were not exhausted yet -/
  | running
  deriving DecidableEq

/-- The loop of `join` for at most so many turns: the queue, the addresses
    seen, the last error. -/
def joinLoop (U : UrlPackage) (net : Net) (nodeID raftAddr : Bytes) :
    Nat → List Bytes → List Bytes → Option JoinErr → List Url × JoinEnd
  | _, [], _, lastErr => ([], .failed (lastErr.getD .noTargets))
  | 0, _ :: _, _, _ => ([], .running)
  | fuel + 1, head :: queue, seen, lastErr =>
    let target := trimSpace head
    let normalized := normalizeJoinAddr target
    if target = [] ∨ normalized ∈ seen then
      joinLoop U net nodeID raftAddr fuel queue seen lastErr
    else
      let once := joinOnce U net nodeID raftAddr target
      match once.2 with
      | .joined hint => (once.1, .joined (some (if hint = [] then target else hint)))
      | .panicked => (once.1, .panicked)
      | .refused hint err =>
        let hint := trimSpace hint
        let hintKey := normalizeJoinAddr hint
        let queue :=
          if hintKey ≠ [] ∧ hintKey ∉ normalized :: seen then hint :: queue else queue
        let rest := joinLoop U net nodeID raftAddr fuel queue (normalized :: seen) (some err)
        (once.1 ++ rest.1, rest.2)

/-- `Node.join`, with the URLs it requested. -/
def join (U : UrlPackage) (net : Net) (fuel : Nat) (nodeID raftAddr : Bytes)
    (targets : List Bytes) : List Url × JoinEnd :=
  if targets = [] then ([], .joined none)
  else joinLoop U net nodeID raftAddr fuel targets [] none

/-! ## Through a follower -/

/-- The join URL of an address, as text and as read. -/
def joinText (addr : Bytes) : Bytes := ascii "http://" ++ addr ++ httpJoinPath

def joinUrl (addr : Bytes) : Url := ⟨ascii "http", addr, httpJoinPath⟩

/-- An address as the operating system prints it: no blanks around, no
    scheme, and a host to package `net/url`. -/
structure PlainAddr (U : UrlPackage) (addr : Bytes) : Prop where
  nonempty : addr ≠ []
  trimmed : trimSpace addr = addr
  noScheme : hasPrefix addr (ascii "http://") = false ∧ hasPrefix addr (ascii "https://") = false
  parse : U.parse (joinText addr) = some (joinUrl addr)
  resolve : ∀ u, U.resolve u (joinText addr) = some (joinUrl addr)

/-- The members' join servers, each at its HTTP address. -/
def netOf (cluster : List Node) (other : Request → Url → Option Response) : Net :=
  ⟨fun host => cluster.find? fun n => n.httpAddr = host, other⟩

/-- A cluster whose Raft transport addresses are no HTTP join addresses, a
    follower `F` in it that knows its leader `L`, and a joining node that `L`
    accepts.  A Raft transport answers no HTTP request. -/
structure ThroughFollower (U : UrlPackage) (cluster : List Node)
    (other : Request → Url → Option Response) (F L : Node) (nodeID raftAddr : Bytes) : Prop where
  unique : (cluster.map Node.httpAddr).Nodup
  distinct : ∀ m ∈ cluster, ∀ n ∈ cluster, m.raftAddr ≠ n.httpAddr
  transport : ∀ m ∈ cluster, ∀ r, other r (joinUrl m.raftAddr) = none
  plain : ∀ m ∈ cluster, PlainAddr U m.httpAddr ∧ PlainAddr U m.raftAddr
  follower_mem : F ∈ cluster
  leader_mem : L ∈ cluster
  follower : ∀ id addr, F.addVoter id addr = some errNotLeader
  knows : F.leaderWithID = L.raftAddr
  accepts : L.addVoter nodeID raftAddr = none
  joiner : nodeID ≠ [] ∧ raftAddr ≠ []

namespace ThroughFollower

variable {U : UrlPackage} {cluster : List Node} {other : Request → Url → Option Response}
  {F L : Node} {nodeID raftAddr : Bytes}

omit [UnicodeTables] in
/-- A member's join server is where its HTTP address says. -/
theorem joinServer_eq (other : Request → Url → Option Response)
    (hu : (cluster.map Node.httpAddr).Nodup) {n : Node} (hn : n ∈ cluster) :
    (netOf cluster other).joinServer n.httpAddr = some n := by
  show cluster.find? (fun m => m.httpAddr = n.httpAddr) = some n
  induction cluster with
  | nil => exact absurd hn List.not_mem_nil
  | cons m ms ih =>
    rw [List.map_cons, List.nodup_cons] at hu
    obtain rfl | hmem := List.mem_cons.mp hn
    · simp
    · have hne : m.httpAddr ≠ n.httpAddr := by
        intro heq
        exact hu.1 (heq ▸ List.mem_map_of_mem hmem)
      rw [List.find?_cons_of_neg (by simpa using hne)]
      exact ih hu.2 hmem

omit [UnicodeTables] in
/-- No join server is at a Raft transport address. -/
theorem joinServer_raftAddr (h : ThroughFollower U cluster other F L nodeID raftAddr) :
    (netOf cluster other).joinServer L.raftAddr = none := by
  show cluster.find? (fun m => m.httpAddr = L.raftAddr) = none
  rw [List.find?_eq_none]
  intro m hm
  simpa using (h.distinct L h.leader_mem m hm).symm

omit [UnicodeTables] in
theorem leader_ne (h : ThroughFollower U cluster other F L nodeID raftAddr) :
    L.httpAddr ≠ F.httpAddr := by
  intro heq
  have hF := joinServer_eq other h.unique h.follower_mem
  have hL := joinServer_eq other h.unique h.leader_mem
  rw [heq, hF] at hL
  have hacc := h.accepts
  rw [← Option.some.inj hL, h.follower] at hacc
  exact absurd hacc (by simp)

/-- The follower points at its leader's Raft transport address. -/
theorem handleJoin_follower (h : ThroughFollower U cluster other F L nodeID raftAddr) :
    handleJoin F ⟨.post, some (nodeID, raftAddr)⟩
      = ⟨307, L.raftAddr, joinText L.raftAddr,
        ascii "not leader (leader=" ++ L.raftAddr ++ ascii ")" ++ ascii "\n"⟩ := by
  have hplain := (h.plain L h.leader_mem).2
  have hexists : contains (toLower errNotLeader.text) (ascii "exists") = false := rfl
  have hknown : contains (toLower errNotLeader.text) (ascii "known peer") = false := rfl
  have hleader : errNotLeader.notLeader = true := rfl
  simp only [handleJoin, h.follower, h.knows, hexists, hknown, hleader, hplain.nonempty,
    hplain.trimmed, h.joiner.1, h.joiner.2]
  simp [notLeaderAnswer, hplain.nonempty, httpError, joinText]

/-- **The request to the follower** goes on to the leader's Raft transport
    address and fails there. -/
theorem send_follower (h : ThroughFollower U cluster other F L nodeID raftAddr) :
    (netOf cluster other).send U ⟨.post, some (nodeID, raftAddr)⟩ (joinUrl F.httpAddr)
      = ([joinUrl F.httpAddr, joinUrl L.raftAddr], none) := by
  have hplain := (h.plain L h.leader_mem).2
  have hF : (netOf cluster other).roundTrip ⟨.post, some (nodeID, raftAddr)⟩
      (joinUrl F.httpAddr) = some ⟨307, L.raftAddr, joinText L.raftAddr,
        ascii "not leader (leader=" ++ L.raftAddr ++ ascii ")" ++ ascii "\n"⟩ := by
    rw [← h.handleJoin_follower]
    simp [Net.roundTrip, joinUrl, joinServer_eq other h.unique h.follower_mem]
  have hL : (netOf cluster other).roundTrip ⟨.post, some (nodeID, raftAddr)⟩
      (joinUrl L.raftAddr) = none := by
    have hother := h.transport L h.leader_mem ⟨.post, some (nodeID, raftAddr)⟩
    simp only [Net.roundTrip, joinUrl, and_self, if_true, h.joinServer_raftAddr]
    exact hother
  have hloc : joinText L.raftAddr ≠ [] := by simp [joinText, ascii]
  unfold Net.send clientDo
  rw [hF]
  simp only [redirectBehavior, hplain.resolve, if_neg hloc]
  unfold clientDo
  simp [hL]

end ThroughFollower

variable {U : UrlPackage} {cluster : List Node} {other : Request → Url → Option Response}
  {F L : Node} {nodeID raftAddr : Bytes}

omit [UnicodeTables] in
theorem PlainAddr.buildJoinURL {addr : Bytes} (h : PlainAddr U addr) :
    buildJoinURL U addr = some (joinText addr) := by
  simp [TinyJoin.buildJoinURL, h.trimmed, h.nonempty, h.noScheme.1, h.noScheme.2, joinText]

theorem joinOnce_follower (h : ThroughFollower U cluster other F L nodeID raftAddr) :
    joinOnce U (netOf cluster other) nodeID raftAddr F.httpAddr
      = ([joinUrl F.httpAddr, joinUrl L.raftAddr],
        .refused [] (.requestFailed F.httpAddr)) := by
  have hplain := (h.plain F h.follower_mem).1
  simp only [joinOnce, hplain.buildJoinURL, hplain.parse, h.send_follower]

/-- A join with one target ends as its one request does, when that gives no
    hint. -/
theorem join_single {addr : Bytes} (hplain : PlainAddr U addr) (net : Net) {requests : List Url}
    {err : JoinErr} (honce : joinOnce U net nodeID raftAddr addr = (requests, .refused [] err))
    (fuel : Nat) :
    join U net (fuel + 1) nodeID raftAddr [addr] = (requests, .failed err) := by
  have hempty : normalizeJoinAddr [] = [] := rfl
  have hnil : trimSpace [] = [] := rfl
  simp [join, joinLoop, hplain.trimmed, hplain.nonempty, honce, hempty, hnil]

/-- **JOINING THROUGH A FOLLOWER** never works.  The follower's redirect leads
    to the leader's Raft transport address, the request fails there, and with
    it the join; the leader's join address is never asked. -/
theorem join_through_follower_fails
    (h : ThroughFollower U cluster other F L nodeID raftAddr) (fuel : Nat) :
    join U (netOf cluster other) (fuel + 1) nodeID raftAddr [F.httpAddr]
      = ([joinUrl F.httpAddr, joinUrl L.raftAddr], .failed (.requestFailed F.httpAddr)) ∧
    joinUrl L.httpAddr
      ∉ (join U (netOf cluster other) (fuel + 1) nodeID raftAddr [F.httpAddr]).1 := by
  have hjoin := join_single (h.plain F h.follower_mem).1 (netOf cluster other)
    (joinOnce_follower h) fuel
  refine ⟨hjoin, ?_⟩
  rw [hjoin]
  have hF : joinUrl L.httpAddr ≠ joinUrl F.httpAddr := fun heq =>
    h.leader_ne (congrArg Url.host heq)
  have hL : joinUrl L.httpAddr ≠ joinUrl L.raftAddr := fun heq =>
    h.distinct L h.leader_mem L h.leader_mem (congrArg Url.host heq).symm
  simp [hF, hL]

end Join

/-! ## A cluster of two -/

/-- A leader on the default addresses. -/
def leaderNode : Node :=
  ⟨ascii "127.0.0.1:17000", ascii "127.0.0.1:7000", fun _ _ => none, ascii "127.0.0.1:7000"⟩

/-- A follower of it on the next ports. -/
def followerNode : Node :=
  ⟨ascii "127.0.0.1:17001", ascii "127.0.0.1:7001", fun _ _ => some errNotLeader,
    ascii "127.0.0.1:7000"⟩

/-- A URL without user, query or escapes. -/
def bareParse (text : Bytes) : Option Url :=
  if hasPrefix text (ascii "http://") then
    let rest := text.drop 7
    some ⟨ascii "http", rest.takeWhile (· ≠ 47), rest.dropWhile (· ≠ 47)⟩
  else none

def bareUrls : UrlPackage where
  parse := bareParse
  string := fun u => u.scheme ++ ascii "://" ++ u.host ++ u.path
  resolve := fun _ => bareParse

theorem bareUrls_plain {addr : Bytes} (hne : addr ≠ []) (htrim : trimSpace addr = addr)
    (hscheme : hasPrefix addr (ascii "http://") = false ∧ hasPrefix addr (ascii "https://") = false)
    (hparse : bareParse (joinText addr) = some (joinUrl addr)) : PlainAddr bareUrls addr :=
  ⟨hne, htrim, hscheme, hparse, fun _ => hparse⟩

theorem cluster_plain : ∀ m ∈ [leaderNode, followerNode],
    PlainAddr bareUrls m.httpAddr ∧ PlainAddr bareUrls m.raftAddr := by
  intro m hm
  simp only [List.mem_cons, List.not_mem_nil, or_false] at hm
  obtain rfl | rfl := hm
  · exact ⟨bareUrls_plain (by decide) (by decide) (by decide) (by decide),
      bareUrls_plain (by decide) (by decide) (by decide) (by decide)⟩
  · exact ⟨bareUrls_plain (by decide) (by decide) (by decide) (by decide),
      bareUrls_plain (by decide) (by decide) (by decide) (by decide)⟩

theorem cluster_throughFollower :
    ThroughFollower bareUrls [leaderNode, followerNode] (fun _ _ => none) followerNode leaderNode
      (ascii "node3") (ascii "127.0.0.1:7002") where
  unique := by decide
  distinct := by
    intro m hm n hn
    simp only [List.mem_cons, List.not_mem_nil, or_false] at hm hn
    obtain rfl | rfl := hm <;> obtain rfl | rfl := hn <;> decide
  transport := fun _ _ _ => rfl
  plain := cluster_plain
  follower_mem := by simp
  leader_mem := by simp
  follower := fun _ _ => rfl
  knows := rfl
  accepts := rfl
  joiner := by decide

/-- A third node joins through the follower. -/
theorem join_through_follower_fails_two :
    letI : UnicodeTables := ⟨id, id, id, fun _ => false⟩
    ThroughFollower bareUrls [leaderNode, followerNode] (fun _ _ => none) followerNode leaderNode
      (ascii "node3") (ascii "127.0.0.1:7002") ∧
    (join bareUrls (netOf [leaderNode, followerNode] fun _ _ => none) 1 (ascii "node3")
      (ascii "127.0.0.1:7002") [followerNode.httpAddr]).2
        = .failed (.requestFailed (ascii "127.0.0.1:17001")) := by
  let tables : UnicodeTables := ⟨id, id, id, fun _ => false⟩
  refine ⟨cluster_throughFollower, ?_⟩
  rw [(join_through_follower_fails cluster_throughFollower 0).1]
  rfl

/-- The join server asked is the follower's; the next request goes to port
    7000, the leader's Raft transport, and not to its join server on port
    17000; nobody keeps the new voter.  Through the leader the same node joins
    at once. -/
theorem follower_redirects_to_transport :
    letI : UnicodeTables := ⟨id, id, id, fun _ => false⟩
    join bareUrls (netOf [leaderNode, followerNode] fun _ _ => none) 10 (ascii "node3")
        (ascii "127.0.0.1:7002") [ascii "127.0.0.1:17001"]
      = ([⟨ascii "http", ascii "127.0.0.1:17001", ascii "/join"⟩,
          ⟨ascii "http", ascii "127.0.0.1:7000", ascii "/join"⟩],
        .failed (.requestFailed (ascii "127.0.0.1:17001"))) ∧
    join bareUrls (netOf [leaderNode, followerNode] fun _ _ => none) 10 (ascii "node3")
        (ascii "127.0.0.1:7002") [ascii "127.0.0.1:17000"]
      = ([⟨ascii "http", ascii "127.0.0.1:17000", ascii "/join"⟩],
        .joined (some (ascii "127.0.0.1:17000"))) := by
  decide +kernel

end TinyJoin
