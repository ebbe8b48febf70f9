import Hivemind.Lib.Runs
import Hivemind.Net.GetData
import Hivemind.Net.Headers

/-!
# Headers between two nodes (`main.cpp`)

A client asks a server with a locator for the headers that it lacks, and adds them to its block
index.  Meanwhile both nodes get headers and blocks from elsewhere and move their active chains.

A locator may be old when it arrives, since the client has gone on, and a reply may be old when
it is read.  Neither does harm: what a message rests on is that the client has the blocks that
the locator names, and the index of a node only grows.  A reply starts above one of these blocks,
or above the genesis block, and each of its headers follows the one before, so the client finds
the parent of each; a header may still be refused for what is in it, by rules that both nodes
share.

* `serveHeaders_spec`: a reply starts above an entry of the locator and is continuous.
* `processHeaders_spec`: such a reply is not refused for what holds it together.
* `Inv`: what holds on the way, of the messages that have not arrived.
* `run_unpunished`: **a server is never punished for the order of its headers.**
-/

namespace Hivemind

open Codecs Forests Outcomes Runs HeaderNode

/-- `MAX_HEADERS_RESULTS`. -/
def maxHeadersResults : Nat := 2000

/-- A `getheaders` message. -/
structure GetHeaders where
  locator : List Uint256
  hashStop : Uint256 := Blob.null
  deriving DecidableEq

/-! ## `getheaders` -/

section Serve

variable (node : HeaderNode)

/-- The loop over the active chain; it ends at `hashStop` and at the limit. -/
def headersFrom (hashStop : Uint256) : Nat → Option Uint256 → List Uint256
  | 0, _ => []
  | _, none => []
  | nLimit + 1, some pindex =>
    pindex :: if pindex = hashStop then []
      else headersFrom hashStop nLimit (node.chainActive.next node.links pindex)

/-- Where the reply starts; `none` when a null locator names no block. -/
def headersStart (msg : GetHeaders) : Option (Option Uint256) :=
  if msg.locator = [] then
    if node.links.Has msg.hashStop then some (some msg.hashStop) else none
  else
    -- find the last block the caller has in the main chain
    some ((node.chainActive.findForkInGlobalIndex node.links msg.locator).bind
      (node.chainActive.next node.links))

/-- The headers of entries. -/
def headersOf (hashes : List Uint256) : List CBlockHeader :=
  hashes.filterMap fun h => (node.tree.find h).map CBlockIndex.getBlockHeader

/-- The reply to a `getheaders` message. -/
def serveHeaders (msg : GetHeaders) : Option (List CBlockHeader) :=
  (headersStart node msg).map fun pindex =>
    headersOf node (headersFrom node msg.hashStop maxHeadersResults pindex)

end Serve

/-! ## `headers` -/

/-- How a `headers` message ends early. -/
inductive HeadersFault where
  /-- More than `MAX_HEADERS_RESULTS`, for 20 points. -/
  | tooMany
  /-- "non-continuous headers sequence", for 20 points. -/
  | nonContinuous
  /-- "invalid header received", for the points of the check. -/
  | invalid (nDoS : Nat) (reason : RejectReason)
  /-- An assertion or an exception. -/
  | stopped (stop : Stop)

/-- The loop over the headers. -/
def headersLoop (ctx : Context) : HeaderNode → Option CBlockIndex → List CBlockHeader →
    Except HeadersFault (Option CBlockIndex) × HeaderNode
  | node, pindexLast, [] => (.ok pindexLast, node)
  | node, pindexLast, header :: headers =>
    if pindexLast.any fun p => header.hashPrevBlock != p.getBlockHash then
      (.error .nonContinuous, node)
    else match node.acceptHeader ctx header with
      | .ok (pindex, node) => headersLoop ctx node (some pindex) headers
      | .error (.reject nDoS reason _) => (.error (.invalid nDoS reason), node)
      -- the state is an error, but not invalid
      | .error .failed => headersLoop ctx node pindexLast headers
      | .error stop => (.error (.stopped stop), node)

/-- The `headers` message, with the next `getheaders` message. -/
def processHeaders (ctx : Context) (node : HeaderNode) (headers : List CBlockHeader) :
    Except HeadersFault Unit × HeaderNode × Option GetHeaders :=
  if maxHeadersResults < headers.length then (.error .tooMany, node, none)
  -- nothing interesting; stop asking this peer for more headers
  else if headers = [] then (.ok (), node, none)
  else match headersLoop ctx node none headers with
    | (.error e, node) => (.error e, node, none)
    | (.ok pindexLast, node) =>
      -- the message had its maximum size; the peer may have more headers
      (.ok (), node, if headers.length = maxHeadersResults then
        pindexLast.bind fun p =>
          (node.chainActive.getLocator node.links (some p.getBlockHash)).map ({ locator := · })
        else none)

/-! ## What a server replies -/

/-- Each header follows the one before it, and the first one follows `prev`. -/
def Continuous (hash : Bytes → Uint256) : Uint256 → List CBlockHeader → Prop
  | _, [] => True
  | prev, header :: headers =>
    header.hashPrevBlock = prev ∧ Continuous hash (header.getHash hash) headers

variable {hash : Bytes → Uint256} {genesis : Uint256} {node : HeaderNode}

namespace HeaderNode

/-- The entry of a block of the index, and its header. -/
theorem Inv.header (inv : Inv hash genesis node) {h : Uint256} (hhas : node.links.Has h) :
    ∃ p, node.tree.find h = some p ∧ p.phashBlock = some h ∧ p.getBlockHeader.getHash hash = h ∧
      p.getBlockHeader.hashPrevBlock = (node.links.pprev h).getD Blob.null := by
  obtain ⟨p, hp⟩ := Option.isSome_iff_exists.mp ((inv.same.has h).mp hhas)
  obtain ⟨hself, hpprev, -, hheader, hprev⟩ :=
    inv.same.entry h p.place (by rw [hp, Option.map_some])
  refine ⟨p, hp, hself, hheader, ?_⟩
  rw [← hpprev]
  exact hprev

/-- **`Next`** is the child on the active chain. -/
theorem Inv.next (inv : Inv hash genesis node) {a b : Uint256}
    (hnext : node.chainActive.next node.links a = some b) :
    node.links.Has b ∧ node.links.pprev b = some a := by
  obtain ⟨tip, htip, hchain⟩ := inv.chain
  rw [CChain.next] at hnext
  split_ifs at hnext with hon
  have ha := (CChain.contains_iff inv.skip hchain).mp hon
  rw [CChain.get_of_isBranch inv.skip hchain, inv.skip.nHeight_eq,
    ← Nat.cast_succ, inv.skip.prevAt_eq] at hnext
  have hb := Forest.mem_lineage_of_ancestorAt hnext
  have hdepth := Forest.depth_ancestorAt hnext
  have hat : inv.skip.forest.ancestorAt b (inv.skip.forest.depth a) = some a := by
    rw [Forest.ancestorAt_trans hnext (Nat.le_succ _), Forest.mem_lineage_iff.mp ha]
  refine ⟨inv.skip.has_of_mem htip hb, ?_⟩
  cases hp : inv.skip.forest.parent b with
  | none =>
      have hroot := inv.skip.forest.depth_root hp
      omega
  | some c =>
      have hc := inv.skip.forest.depth_parent hp
      rw [Forest.ancestorAt_parent hp (by omega), show inv.skip.forest.depth a =
        inv.skip.forest.depth c by omega, Forest.ancestorAt_self] at hat
      exact hp.trans hat

/-- The blocks of the active chain are in the index. -/
theorem Inv.contains (inv : Inv hash genesis node) {a : Uint256}
    (hon : node.chainActive.contains node.links a = true) : node.links.Has a := by
  obtain ⟨tip, htip, hchain⟩ := inv.chain
  exact inv.skip.has_of_mem htip ((CChain.contains_iff inv.skip hchain).mp hon)

/-- The active chain starts at the genesis block. -/
theorem Inv.genesis_eq (inv : Inv hash genesis node) :
    node.chainActive.genesis = some genesis := by
  obtain ⟨tip, htip, -, hget⟩ := inv.chain
  obtain ⟨c, hc⟩ := Forest.ancestorAt_isSome (Nat.zero_le (inv.skip.forest.depth tip))
  have hdepth := Forest.depth_ancestorAt hc
  rw [CChain.genesis, hget 0 (Nat.zero_le _), Option.join_some, hc]
  refine congrArg some (inv.skip.root (inv.skip.has_of_mem htip
    (Forest.mem_lineage_of_ancestorAt hc)) ?_)
  cases hp : inv.skip.forest.parent c with
  | none => exact hp
  | some b =>
      have hb := inv.skip.forest.depth_parent hp
      omega

end HeaderNode

theorem headersOf_cons (inv : Inv hash genesis node) {h : Uint256} (hhas : node.links.Has h)
    (hashes : List Uint256) :
    ∃ header, headersOf node (h :: hashes) = header :: headersOf node hashes ∧
      header.getHash hash = h ∧
      header.hashPrevBlock = (node.links.pprev h).getD Blob.null := by
  obtain ⟨p, hp, -, hheader, hprev⟩ := inv.header hhas
  exact ⟨p.getBlockHeader, by simp [headersOf, hp], hheader, hprev⟩

/-- **The loop over the active chain** gives headers that follow each other. -/
theorem headersFrom_continuous (inv : Inv hash genesis node) (hashStop : Uint256) (n : Nat)
    {pindex : Option Uint256} {prev : Uint256}
    (hpindex : ∀ h ∈ pindex, node.links.Has h ∧ node.links.pprev h = some prev) :
    Continuous hash prev (headersOf node (headersFrom node hashStop n pindex)) := by
  induction n generalizing pindex prev with
  | zero => trivial
  | succ n ih =>
      cases pindex with
      | none => trivial
      | some h =>
          obtain ⟨hhas, hprev⟩ := hpindex h rfl
          rw [headersFrom]
          obtain ⟨header, hcons, hhash, hlink⟩ := headersOf_cons inv hhas
            (if h = hashStop then []
              else headersFrom node hashStop n (node.chainActive.next node.links h))
          rw [hcons]
          refine ⟨by rw [hlink, hprev]; rfl, ?_⟩
          rw [hhash]
          split_ifs
          · trivial
          · exact ih fun b hb => inv.next hb

theorem length_headersFrom_le (hashStop : Uint256) (n : Nat) (pindex : Option Uint256) :
    (headersFrom node hashStop n pindex).length ≤ n := by
  induction n generalizing pindex with
  | zero => simp [headersFrom]
  | succ n ih =>
      cases pindex with
      | none => simp [headersFrom]
      | some h =>
          rw [headersFrom, List.length_cons]
          split_ifs
          · simp
          · exact Nat.succ_le_succ (ih _)

/-- **A reply** starts above an entry of the locator or above the genesis block; it is
continuous and not too long. -/
theorem serveHeaders_spec (inv : Inv hash genesis node) {msg : GetHeaders}
    (hlocator : msg.locator ≠ []) {headers : List CBlockHeader}
    (hserve : serveHeaders node msg = some headers) :
    headers.length ≤ maxHeadersResults ∧
      ∃ prev, (prev ∈ msg.locator ∨ prev = genesis) ∧ Continuous hash prev headers := by
  rw [serveHeaders, headersStart, if_neg hlocator, Option.map_some] at hserve
  obtain rfl := Option.some.inj hserve
  refine ⟨(List.length_filterMap_le ..).trans (length_headersFrom_le ..), ?_⟩
  rw [CChain.findForkInGlobalIndex, inv.genesis_eq]
  cases hfind : msg.locator.find? fun h =>
      decide (node.links.Has h) && node.chainActive.contains node.links h with
  | none => exact ⟨genesis, Or.inr rfl, headersFrom_continuous inv _ _ fun b hb => inv.next hb⟩
  | some g =>
      exact ⟨g, Or.inl (List.mem_of_find?_eq_some hfind),
        headersFrom_continuous inv _ _ fun b hb => inv.next hb⟩

/-! ## What a client makes of a reply -/

/-- The client has the blocks that the locator names. -/
def GetHeaders.Known (node : HeaderNode) (msg : GetHeaders) : Prop :=
  msg.locator ≠ [] ∧ ∀ h ∈ msg.locator, node.links.Has h

/-- The header that a reply starts with has its parent in the client's index. -/
def KnownReply (hash : Bytes → Uint256) (node : HeaderNode) (headers : List CBlockHeader) : Prop :=
  headers.length ≤ maxHeadersResults ∧ ∃ prev, node.links.Has prev ∧ Continuous hash prev headers

/-- A locator of a block of the index names blocks of the index. -/
theorem getLocator_known (inv : Inv hash genesis node) {pindex : Uint256}
    (hhas : node.links.Has pindex) (hashStop : Uint256) :
    ∃ locator, node.chainActive.getLocator node.links (some pindex) = some locator ∧
      locator.head? = some pindex ∧ GetHeaders.Known node ⟨locator, hashStop⟩ := by
  obtain ⟨tip, htip, hchain⟩ := inv.chain
  obtain ⟨L, hloc, hhead, -, hmem, -⟩ := CChain.locatorLoop_spec inv.skip hchain
    ((node.links.nHeight pindex).toNat + 1) hhas (Nat.lt_succ_self _) (Int.le_refl 1) []
  refine ⟨L, hloc, hhead, ?_, fun h hh => inv.skip.has_of_mem hhas (hmem h hh)⟩
  rintro rfl
  cases hhead

/-- "prev block not found", or no verdict about the header. -/
def Stop.PrevNotFound : Stop → Prop
  | reject nDoS reason _ => nDoS = 10 ∧ reason = .badPrevBlk
  | failed => True
  | _ => False

section Fair

open Stop

theorem avoids_dos {α : Type} {nDoS : Nat} {reason : RejectReason}
    (h : nDoS ≠ 10 ∨ reason ≠ .badPrevBlk) :
    Avoids PrevNotFound (dos nDoS reason : Except Stop α) :=
  Avoids.error fun hbad => h.elim (· hbad.1) (· hbad.2)

theorem checkBlockHeader_avoids (ctx : Context) (block : CBlockHeader) (fCheckPOW : Bool) :
    Avoids PrevNotFound (checkBlockHeader ctx block fCheckPOW) := by
  apply Avoids.ite
  · exact avoids_dos (by decide)
  · exact Avoids.ite (avoids_dos (by decide)) (Avoids.ok ())

theorem contextualCheckBlockHeader_avoids (ctx : Context) (tree : BlockTree) (block : CBlockHeader)
    (pindexPrev : Option CBlockIndex) :
    Avoids PrevNotFound (contextualCheckBlockHeader ctx tree block pindexPrev) := by
  apply Avoids.ite
  · exact Avoids.ok ()
  · cases pindexPrev with
    | none => exact Avoids.error id
    | some pprev =>
        apply Avoids.bind
        · apply Avoids.ite
          · exact Avoids.ok ()
          · cases tree.getNextWorkRequired ctx.params (some pprev) block with
            | none => exact Avoids.error id
            | some nBits => exact Avoids.ite (avoids_dos (by decide)) (Avoids.ok ())
        · intro _ _
          apply Avoids.ite (avoids_dos (by decide))
          apply Avoids.ite (avoids_dos (by decide))
          apply Avoids.ite (avoids_dos (by decide))
          exact Avoids.ite (avoids_dos (by decide)) (Avoids.ok ())

/-- **A header above a known block** is not refused for its parent. -/
theorem acceptHeader_avoids (ctx : Context) {header : CBlockHeader} {prev : CBlockIndex}
    (hprev : node.tree.find header.hashPrevBlock = some prev) :
    Avoids PrevNotFound (node.acceptHeader ctx header) := by
  apply Avoids.map
  rw [acceptBlockHeader]
  cases node.tree.find (header.getHash ctx.hash) with
  | some pindex => exact Avoids.ite (avoids_dos (by decide)) (Avoids.ok _)
  | none =>
      apply Avoids.bind (checkBlockHeader_avoids ..)
      intro _ _
      apply Avoids.bind
      · rw [acceptPrev, hprev]
        apply Avoids.ite (Avoids.ok _)
        exact Avoids.ite (avoids_dos (by decide)) (Avoids.ok _)
      · intro _ _
        exact Avoids.bind (contextualCheckBlockHeader_avoids ..) fun _ _ => Avoids.ok _

end Fair

/-- What a fault must not be for a reply that is continuous above a known block. -/
def HeadersFault.Unfair : HeadersFault → Prop
  | tooMany => True
  | nonContinuous => True
  | invalid nDoS reason => nDoS = 10 ∧ reason = .badPrevBlk
  | stopped _ => False

/-- The header that follows the last one passes the test. -/
theorem continues_last {pindexLast : Option CBlockIndex} {prev : Uint256}
    (hlast : ∀ p ∈ pindexLast, p.phashBlock = some prev) {header : CBlockHeader}
    (hlink : header.hashPrevBlock = prev) :
    ¬ (pindexLast.any fun p => header.hashPrevBlock != p.getBlockHash) = true := by
  cases pindexLast with
  | none => simp
  | some p => simp [CBlockIndex.getBlockHash, hlast p rfl, hlink]

/-- **The loop over the headers** of a continuous reply. -/
theorem headersLoop_spec {ctx : Context} (hrules : Rules hash genesis ctx)
    (inv : Inv hash genesis node) {pindexLast : Option CBlockIndex} {prev : Uint256}
    (hlast : ∀ p ∈ pindexLast, p.phashBlock = some prev) (hhas : node.links.Has prev)
    {headers : List CBlockHeader} (hcont : Continuous hash prev headers) :
    Avoids HeadersFault.Unfair (headersLoop ctx node pindexLast headers).1 ∧
      Inv hash genesis (headersLoop ctx node pindexLast headers).2 ∧
      Grows node (headersLoop ctx node pindexLast headers).2 ∧
      ∀ p, (headersLoop ctx node pindexLast headers).1 = .ok (some p) →
        (headersLoop ctx node pindexLast headers).2.links.Has p.getBlockHash := by
  induction headers generalizing node pindexLast prev with
  | nil =>
      refine ⟨Avoids.ok _, inv, fun h hh => hh, ?_⟩
      intro p hp
      have hself := hlast p (Except.ok.inj hp)
      rw [CBlockIndex.getBlockHash, hself]
      exact hhas
  | cons header headers ih =>
      obtain ⟨hlink, hcont⟩ := hcont
      obtain ⟨prevEntry, hprev, -⟩ := inv.header hhas
      have hfair := @acceptHeader_avoids node ctx header prevEntry (by rw [hlink]; exact hprev)
      rw [headersLoop, if_neg (continues_last hlast hlink)]
      cases haccept : node.acceptHeader ctx header with
      | ok r =>
          obtain ⟨pindex, node'⟩ := r
          obtain ⟨inv', hgrows, hself, hhas'⟩ := inv.acceptHeader hrules haccept
          have hlast' : ∀ p ∈ some pindex, p.phashBlock = some (header.getHash hash) := by
            rintro p ⟨⟩
            exact hself
          obtain ⟨havoid, hinv, hgrows', hknown⟩ := ih inv' hlast' hhas' hcont
          exact ⟨havoid, hinv, fun h hh => hgrows' h (hgrows h hh), hknown⟩
      | error stop =>
          have hstop := hfair.not_bad stop haccept
          cases stop with
          | reject nDoS reason corruption =>
              exact ⟨Avoids.error hstop, inv, fun h hh => hh, fun p hp => by cases hp⟩
          | raised e => exact ⟨Avoids.error id, inv, fun h hh => hh, fun p hp => by cases hp⟩
          | asserted => exact ⟨Avoids.error id, inv, fun h hh => hh, fun p hp => by cases hp⟩
          | failed => exact absurd trivial hstop

/-- **The `headers` message** with a reply that starts above a known block. -/
theorem processHeaders_spec {ctx : Context} (hrules : Rules hash genesis ctx)
    (inv : Inv hash genesis node) {headers : List CBlockHeader}
    (hreply : KnownReply hash node headers) :
    Avoids HeadersFault.Unfair (processHeaders ctx node headers).1 ∧
      Inv hash genesis (processHeaders ctx node headers).2.1 ∧
      Grows node (processHeaders ctx node headers).2.1 ∧
      ∀ msg ∈ (processHeaders ctx node headers).2.2,
        msg.Known (processHeaders ctx node headers).2.1 := by
  obtain ⟨hlen, prev, hhas, hcont⟩ := hreply
  rw [processHeaders, if_neg (Nat.not_lt.mpr hlen)]
  by_cases hnil : headers = []
  · rw [if_pos hnil]
    exact ⟨Avoids.ok _, inv, fun h hh => hh, by simp⟩
  · rw [if_neg hnil]
    obtain ⟨havoid, hinv, hgrows, hknown⟩ :=
      @headersLoop_spec hash genesis node ctx hrules inv none prev (by simp) hhas headers hcont
    cases hloop : headersLoop ctx node none headers with
    | mk r node' =>
        rw [hloop] at havoid hinv hgrows hknown
        cases r with
        | error e =>
            have hfair : ¬ HeadersFault.Unfair e := havoid.not_bad e rfl
            exact ⟨Avoids.error hfair, hinv, hgrows, by simp⟩
        | ok pindexLast =>
            refine ⟨Avoids.ok _, hinv, hgrows, ?_⟩
            intro msg hmsg
            simp only at hmsg
            split_ifs at hmsg
            · obtain ⟨p, rfl, hnext⟩ := Option.bind_eq_some_iff.mp hmsg
              obtain ⟨locator, hloc, -, hmem⟩ := getLocator_known hinv (hknown p rfl) Blob.null
              obtain rfl : { locator } = msg :=
                Option.some.inj ((congrArg (Option.map _) hloc).symm.trans hnext)
              exact hmem
            · cases hmsg

/-! ## The exchange -/

/-- A client and a server, with what is on its way between them. -/
structure HeaderSync where
  client : HeaderNode
  server : HeaderNode
  requests : List GetHeaders := []
  replies : List (List CBlockHeader) := []
  /-- How the `headers` messages ended, from the first one on. -/
  outcomes : List (Except HeadersFault Unit) := []

namespace HeaderSync

/-- What a node does besides. -/
inductive NodeAct
  | onHeader (ctx : Context) (block : CBlockHeader)
  | onBlock (ctx : AcceptContext) (block : CBlock) (dbp : Option CDiskBlockPos)
  | setTip (tip : Uint256)

/-- The node after it. -/
def NodeAct.apply (node : HeaderNode) : NodeAct → HeaderNode
  | onHeader ctx block => match node.acceptHeader ctx block with
    | .error _ => node
    | .ok (_, node) => node
  | onBlock ctx block dbp => node.acceptBlock ctx block dbp
  | setTip tip => node.setTip tip

inductive Act
  | client (act : NodeAct)
  | server (act : NodeAct)
  /-- The client asks, with the locator of one of its blocks. -/
  | ask (pindex hashStop : Uint256)
  /-- The server gets a `getheaders` message. -/
  | serve
  /-- The client gets a `headers` message. -/
  | headers (ctx : Context)

/-- One step; `none` when there is no such message or no such block. -/
def step (s : HeaderSync) : Act → Option HeaderSync
  | .client act => some { s with client := act.apply s.client }
  | .server act => some { s with server := act.apply s.server }
  | .ask pindex hashStop =>
    if s.client.links.Has pindex then
      (s.client.chainActive.getLocator s.client.links (some pindex)).map fun locator =>
        { s with requests := s.requests ++ [{ locator, hashStop }] }
    else none
  | .serve => match s.requests with
    | [] => none
    | msg :: requests =>
      some { s with requests, replies := s.replies ++ (serveHeaders s.server msg).toList }
  | .headers ctx => match s.replies with
    | [] => none
    | headers :: replies =>
      let r := processHeaders ctx s.client headers
      some { s with
        client := r.2.1
        requests := s.requests ++ r.2.2.toList
        replies
        outcomes := s.outcomes ++ [r.1] }

/-- Two nodes with the genesis block. -/
def start (hash : Bytes → Uint256) (genesis : CBlockHeader) : HeaderSync where
  client := .new hash genesis
  server := .new hash genesis

/-- Both nodes have the same rules. -/
def NodeAct.Valid (hash : Bytes → Uint256) (genesis : Uint256) : NodeAct → Prop
  | onHeader ctx _ => Rules hash genesis ctx
  | onBlock ctx _ _ => Rules hash genesis ctx.toContext
  | setTip _ => True

def Act.Valid (hash : Bytes → Uint256) (genesis : Uint256) : Act → Prop
  | client act => act.Valid hash genesis
  | server act => act.Valid hash genesis
  | headers ctx => Rules hash genesis ctx
  | _ => True

/-- **What holds on the way**: the client has the blocks that its locators name and the
blocks that the replies continue. -/
structure Inv (hash : Bytes → Uint256) (genesis : Uint256) (s : HeaderSync) : Prop where
  client : HeaderNode.Inv hash genesis s.client
  server : HeaderNode.Inv hash genesis s.server
  requests : ∀ msg ∈ s.requests, msg.Known s.client
  replies : ∀ headers ∈ s.replies, KnownReply hash s.client headers
  outcomes : ∀ r ∈ s.outcomes, Avoids HeadersFault.Unfair r

theorem NodeAct.apply_spec {act : NodeAct} (hact : act.Valid hash genesis)
    (inv : HeaderNode.Inv hash genesis node) :
    HeaderNode.Inv hash genesis (act.apply node) ∧ Grows node (act.apply node) := by
  cases act with
  | onHeader ctx block =>
      rw [NodeAct.apply]
      cases haccept : node.acceptHeader ctx block with
      | error e => exact ⟨inv, fun h hh => hh⟩
      | ok r =>
          obtain ⟨inv', hgrows, -⟩ := inv.acceptHeader hact haccept
          exact ⟨inv', hgrows⟩
  | onBlock ctx block dbp => exact inv.acceptBlock hact block dbp
  | setTip tip => exact inv.setTip tip

/-- Messages stay good while the client's index grows. -/
theorem known_of_grows {node' : HeaderNode} (hgrows : Grows node node') {msg : GetHeaders}
    (h : msg.Known node) : msg.Known node' :=
  ⟨h.1, fun k hk => hgrows k (h.2 k hk)⟩

theorem knownReply_of_grows {node' : HeaderNode} (hgrows : Grows node node')
    {headers : List CBlockHeader} (h : KnownReply hash node headers) :
    KnownReply hash node' headers := by
  obtain ⟨hlen, prev, hhas, hcont⟩ := h
  exact ⟨hlen, prev, hgrows prev hhas, hcont⟩

/-- **Each step keeps the invariant.** -/
theorem Inv.step {s s' : HeaderSync} {a : Act} (inv : Inv hash genesis s)
    (ha : a.Valid hash genesis) (hstep : step s a = some s') : Inv hash genesis s' := by
  obtain ⟨hclient, hserver, hrequests, hreplies, houtcomes⟩ := inv
  cases a with
  | client act =>
      obtain rfl := Option.some.inj hstep
      obtain ⟨hclient', hgrows⟩ := NodeAct.apply_spec ha hclient
      exact ⟨hclient', hserver, fun msg hmsg => known_of_grows hgrows (hrequests msg hmsg),
        fun hs hhs => knownReply_of_grows hgrows (hreplies hs hhs), houtcomes⟩
  | server act =>
      obtain rfl := Option.some.inj hstep
      exact ⟨hclient, (NodeAct.apply_spec ha hserver).1, hrequests, hreplies, houtcomes⟩
  | ask pindex hashStop =>
      rw [HeaderSync.step] at hstep
      split_ifs at hstep with hhas
      obtain ⟨locator, hloc, -, hknown⟩ := getLocator_known hclient hhas hashStop
      rw [hloc] at hstep
      obtain rfl := Option.some.inj hstep
      refine ⟨hclient, hserver, fun msg hmsg => ?_, hreplies, houtcomes⟩
      rcases List.mem_append.mp hmsg with hold | hnew
      · exact hrequests msg hold
      · rw [List.mem_singleton.mp hnew]
        exact hknown
  | serve =>
      rw [HeaderSync.step] at hstep
      cases hs : s.requests with
      | nil =>
          rw [hs] at hstep
          cases hstep
      | cons msg requests =>
          rw [hs] at hstep hrequests
          obtain rfl := Option.some.inj hstep
          refine ⟨hclient, hserver, fun m hm => hrequests m (List.mem_cons_of_mem msg hm),
            fun headers hheaders => ?_, houtcomes⟩
          rcases List.mem_append.mp hheaders with hold | hnew
          · exact hreplies headers hold
          · obtain ⟨hne, hknown⟩ := hrequests msg List.mem_cons_self
            obtain ⟨hlen, prev, hprev, hcont⟩ :=
              serveHeaders_spec hserver hne (Option.mem_toList.mp hnew)
            refine ⟨hlen, prev, ?_, hcont⟩
            rcases hprev with hmem | rfl
            · exact hknown prev hmem
            · exact hclient.skip.has_genesis
  | headers ctx =>
      rw [HeaderSync.step] at hstep
      cases hs : s.replies with
      | nil =>
          rw [hs] at hstep
          cases hstep
      | cons headers replies =>
          rw [hs] at hstep hreplies
          obtain rfl := Option.some.inj hstep
          obtain ⟨havoid, hclient', hgrows, hnext⟩ :=
            processHeaders_spec ha hclient (hreplies headers List.mem_cons_self)
          refine ⟨hclient', hserver, fun msg hmsg => ?_, fun hs hhs => ?_, fun r hr => ?_⟩
          · rcases List.mem_append.mp hmsg with hold | hnew
            · exact known_of_grows hgrows (hrequests msg hold)
            · exact hnext msg (Option.mem_toList.mp hnew)
          · exact knownReply_of_grows hgrows (hreplies hs (List.mem_cons_of_mem headers hhs))
          · rcases List.mem_append.mp hr with hold | hnew
            · exact houtcomes r hold
            · rw [List.mem_singleton.mp hnew]
              exact havoid

theorem inv_start {header : CBlockHeader} (hnull : header.hashPrevBlock = Blob.null)
    (hne : header.getHash hash ≠ Blob.null) :
    Inv hash (header.getHash hash) (start hash header) where
  client := inv_new hnull hne
  server := inv_new hnull hne
  requests := by simp [start]
  replies := by simp [start]
  outcomes := by simp [start]

theorem inv_run {header : CBlockHeader} (hnull : header.hashPrevBlock = Blob.null)
    (hne : header.getHash hash ≠ Blob.null) {acts : List Act} {s : HeaderSync}
    (hacts : ∀ a ∈ acts, a.Valid hash (header.getHash hash))
    (hrun : run step (start hash header) acts = some s) : Inv hash (header.getHash hash) s :=
  run_inv_of_mem (Inv hash (header.getHash hash)) (fun _ a ha _ inv => inv.step (hacts a ha))
    (inv_start hnull hne) hrun

/-- The server gets a block, and the client asks with its genesis block. -/
def exampleActs : List Act :=
  [.server (.onHeader servedContext.toContext headerAlone),
    .server (.setTip (headerAlone.getHash exampleHash)),
    .ask (firstServed.getHash exampleHash) Blob.null]

def exampleSync : HeaderSync :=
  (run step (start exampleHash firstServed.toCBlockHeader) exampleActs).getD
    (start exampleHash firstServed.toCBlockHeader)

theorem run_exampleActs : run step (start exampleHash firstServed.toCBlockHeader) exampleActs =
    some exampleSync := by
  have hsome : (run step (start exampleHash firstServed.toCBlockHeader) exampleActs).isSome =
      true := by decide +kernel
  obtain ⟨s, hs⟩ := Option.isSome_iff_exists.mp hsome
  rw [exampleSync, hs]
  rfl

theorem exampleRules : Rules exampleHash (firstServed.getHash exampleHash)
    servedContext.toContext := ⟨rfl, rfl⟩

theorem exampleActs_valid :
    ∀ a ∈ exampleActs, a.Valid exampleHash (firstServed.getHash exampleHash) := by
  simp only [exampleActs, List.forall_mem_cons]
  exact ⟨exampleRules, trivial, trivial, by simp⟩

theorem valid_round {ctx : Context} (hrules : Rules hash genesis ctx) :
    ∀ a ∈ [Act.serve, Act.headers ctx], a.Valid hash genesis := by
  simp [Act.Valid, hrules]

/-- **A server is never punished for the order of its headers**: however both nodes get
headers and blocks from elsewhere and move their active chains while messages are on their
way, no `headers` message is too long or not continuous, and no header is refused because
the block before it is not found. -/
theorem run_unpunished {header : CBlockHeader} (hnull : header.hashPrevBlock = Blob.null)
    (hne : header.getHash hash ≠ Blob.null) {acts : List Act} {s : HeaderSync}
    (hacts : ∀ a ∈ acts, a.Valid hash (header.getHash hash))
    (hrun : run step (start hash header) acts = some s) :
    ∀ e, .error e ∈ s.outcomes → ¬ HeadersFault.Unfair e := by
  intro e he
  exact ((inv_run hnull hne hacts hrun).outcomes _ he).not_bad e rfl

/-- The request is served, and the reply is taken. -/
theorem exampleActs_unpunished :
    ∃ s, run step (start exampleHash firstServed.toCBlockHeader)
        (exampleActs ++ [.serve, .headers servedContext.toContext]) = some s ∧
      s.outcomes.length = 1 ∧ ∀ e, .error e ∈ s.outcomes → ¬ HeadersFault.Unfair e := by
  have hsome : ((run step (start exampleHash firstServed.toCBlockHeader) (exampleActs ++
      [.serve, .headers servedContext.toContext])).map fun s => s.outcomes.length) = some 1 := by
    decide +kernel
  obtain ⟨s, hrun, hlen⟩ := Option.map_eq_some_iff.mp hsome
  refine ⟨s, hrun, hlen, run_unpunished (by decide +kernel) (by decide +kernel) ?_ hrun⟩
  intro a ha
  rcases List.mem_append.mp ha with ha | ha
  · exact exampleActs_valid a ha
  · exact valid_round exampleRules a ha

end HeaderSync

end Hivemind
