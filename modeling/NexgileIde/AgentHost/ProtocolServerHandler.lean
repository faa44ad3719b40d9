import NexgileIde.AgentHost.AgentSubscription
import Mathlib.Data.List.AList

/-!
# Reconnecting to the protocol server

The server keeps the last envelopes. When a client reconnects, its subscriptions are
restored one by one, and each may take any time. They are inactive until all of them have
settled. Then the client is released from the sessions to which it did not return, and what
it has missed is answered from the kept envelopes.
-/
namespace NexgileIde.AgentHost

def REPLAY_BUFFER_CAPACITY : ℕ := 1000

/-! ## Channels -/

inductive OtlpLogLevelName
  | trace
  | debug
  | info
  | warn
  | error
  | fatal
deriving DecidableEq

def OtlpLogLevelName.name : OtlpLogLevelName → String
  | trace => "trace"
  | debug => "debug"
  | info => "info"
  | warn => "warn"
  | error => "error"
  | fatal => "fatal"

/-- `channel.toLowerCase().startsWith('ahp-otlp:')` -/
def isOtlpChannel (channel : String) : Bool :=
  "ahp-otlp:".toList.isPrefixOf (channel.toList.map Char.toLower)

def buildOtlpLogsChannelUri (level : OtlpLogLevelName) : String :=
  "ahp-otlp://logs/" ++ level.name

/-- A subscription of a client. The uri is the key under which it is held. -/
inductive ChannelSubscription
  | State (uri : String) (active : Bool)
  | ResourceWatch (uri : String) (active : Bool)
  | OtlpLogs (uri : String) (level : OtlpLogLevelName)
deriving DecidableEq

namespace ChannelSubscription

def uri : ChannelSubscription → String
  | State uri _ => uri
  | ResourceWatch uri _ => uri
  | OtlpLogs uri _ => uri

/-- `{ ...classified, active: false }` -/
def pending : ChannelSubscription → ChannelSubscription
  | State uri _ => State uri false
  | ResourceWatch uri _ => ResourceWatch uri false
  | OtlpLogs uri level => OtlpLogs uri level

/-- The uri of a state or resource watch subscription that is active. -/
def activeUri : ChannelSubscription → Option String
  | State uri true => some uri
  | ResourceWatch uri true => some uri
  | _ => none

/-- The uri of a state subscription, active or not. -/
def stateUri : ChannelSubscription → Option String
  | State uri _ => some uri
  | _ => none

end ChannelSubscription

/-- What the uris of channels mean. -/
structure ChannelNames where
  isAhpRootChannel : String → Bool
  isAhpAutomationCatalogChannel : String → Bool
  isAhpResourceWatchChannel : String → Bool
  extractLevelFromOtlpLogsUri : String → Option OtlpLogLevelName

def classifyChannel (names : ChannelNames) (channel : String) : Option ChannelSubscription :=
  if isOtlpChannel channel then
    match names.extractLevelFromOtlpLogsUri channel with
    | none => none
    | some level => some (.OtlpLogs (buildOtlpLogsChannelUri level) level)
  else if names.isAhpResourceWatchChannel channel then some (.ResourceWatch channel true)
  else some (.State channel true)

variable {σ A : Type}

def isActionEnvelopeRelevantToSubscriptionUris (names : ChannelNames)
    (envelope : ActionEnvelope A) (subscribedUris : List String) : Bool :=
  if names.isAhpRootChannel envelope.channel then
    subscribedUris.any names.isAhpRootChannel
  else if names.isAhpAutomationCatalogChannel envelope.channel then
    subscribedUris.any names.isAhpAutomationCatalogChannel
  else subscribedUris.any fun uri => uri = envelope.channel

/-! ## Sessions -/

inductive ToolCallStatus
  | Streaming
  | PendingConfirmation
  | Running
  | AuthRequired
  | PendingResultConfirmation
  | Completed
  | Cancelled
deriving DecidableEq

def isPendingToolCallStatus (status : ToolCallStatus) : Bool :=
  status = .Streaming || status = .Running || status = .PendingConfirmation

inductive ToolCallContributor
  | Client (clientId : String)
  | MCP

structure ToolCall where
  toolCallId : String
  toolName : String
  displayName : String
  invocationMessage : Option String
  status : ToolCallStatus
  contributor : Option ToolCallContributor

inductive ResponsePart
  | ToolCall (toolCall : ToolCall)
  | other

structure Turn where
  id : String
  responseParts : List ResponsePart

structure SessionActiveClient where
  clientId : String
  tools : List String

structure SessionWithDefaultChat where
  activeClients : List SessionActiveClient
  chats : List String
  activeTurn : Option Turn

/-- The actions that release a client from a session. -/
inductive ReleaseAction
  | ChatToolCallReady (turnId toolCallId invocationMessage : String)
  | ChatToolCallComplete (turnId toolCallId pastTenseMessage : String) (content : Option String)
      (error : String)
  | SessionActiveClientRemoved (clientId : String)

/-- The state manager, as far as the server calls it. Dispatching an action emits envelopes. -/
structure StateManager (σ A : Type) where
  getSessionUris : σ → List String
  getSessionState : σ → String → Option SessionWithDefaultChat
  dispatchServerAction : σ → String → ReleaseAction → σ × List (ActionEnvelope A)

/-- The tool calls of the active turn that wait for a client, with the client. -/
def pendingClientToolCalls (turn : Turn) : List (ToolCall × String) :=
  turn.responseParts.filterMap fun part =>
    match part with
    | .other => none
    | .ToolCall toolCall =>
      match toolCall.contributor with
      | some (.Client clientId) =>
        if isPendingToolCallStatus toolCall.status then some (toolCall, clientId) else none
      | _ => none

def hasReplacementActiveClientTool (state : SessionWithDefaultChat) (clientId toolName : String) :
    Bool :=
  state.activeClients.any fun client => client.clientId ≠ clientId && client.tools.contains toolName

def isActiveClient (state : SessionWithDefaultChat) (clientId : String) : Bool :=
  state.activeClients.any fun client => client.clientId = clientId

namespace StateManager

variable (manager : StateManager σ A)

/-- Actions dispatched one after the other, with all envelopes that they emit. -/
def dispatchAll (m : σ) : List (String × ReleaseAction) → σ × List (ActionEnvelope A)
  | [] => (m, [])
  | (channel, action) :: actions =>
    let (m, envelopes) := manager.dispatchServerAction m channel action
    let (m, more) := dispatchAll m actions
    (m, envelopes ++ more)

def completeDisconnectedClientToolCalls (m : σ) (clientId chatChannel : String) :
    σ × List (ActionEnvelope A) :=
  match manager.getSessionState m chatChannel with
  | none => (m, [])
  | some state =>
    match state.activeTurn with
    | none => (m, [])
    | some activeTurn =>
      manager.dispatchAll m <| (pendingClientToolCalls activeTurn).flatMap fun (call, ownerId) =>
        if ownerId ≠ clientId then [] else
          let content :=
            if hasReplacementActiveClientTool state clientId call.toolName then
              some s!"The client that was running {call.displayName} disconnected, but another active client now provides {call.displayName}. You may try calling the tool again."
            else none
          let ready :=
            if call.status = .Streaming then
              [(chatChannel, ReleaseAction.ChatToolCallReady activeTurn.id call.toolCallId
                (call.invocationMessage.getD call.displayName))]
            else []
          ready ++ [(chatChannel, .ChatToolCallComplete activeTurn.id call.toolCallId
            s!"{call.displayName} failed" content
            s!"Client {clientId} disconnected before completing {call.displayName}")]

def removeActiveClient (m : σ) (session clientId : String) : σ × List (ActionEnvelope A) :=
  match manager.getSessionState m session with
  | none => (m, [])
  | some state =>
    if isActiveClient state clientId then
      manager.dispatchServerAction m session (.SessionActiveClientRemoved clientId)
    else (m, [])

def releaseActiveClientForSession (m : σ) (session clientId chatChannel : String) :
    σ × List (ActionEnvelope A) :=
  let (m, completed) := manager.completeDisconnectedClientToolCalls m clientId chatChannel
  let (m, removed) := manager.removeActiveClient m session clientId
  (m, completed ++ removed)

/-- The loop over the chats of a session. -/
def releaseChats (resubscribed : String → Bool) (session clientId : String) (m : σ) :
    List String → σ × List (ActionEnvelope A)
  | [] => (m, [])
  | chat :: chats =>
    let (m, envelopes) :=
      if !resubscribed session && !resubscribed chat then
        manager.releaseActiveClientForSession m session clientId chat
      else (m, [])
    let (m, more) := releaseChats resubscribed session clientId m chats
    (m, envelopes ++ more)

/-- The loop over the sessions. -/
def releaseSessions (resubscribed : String → Bool) (clientId : String) (m : σ) :
    List String → σ × List (ActionEnvelope A)
  | [] => (m, [])
  | session :: sessions =>
    let (m, envelopes) :=
      match manager.getSessionState m session with
      | none => (m, [])
      | some state =>
        if isActiveClient state clientId then
          manager.releaseChats resubscribed session clientId m state.chats
        else (m, [])
    let (m, more) := releaseSessions resubscribed clientId m sessions
    (m, envelopes ++ more)

/-- `_reconcileActiveClientsAfterReconnect`: what the release of a client from the sessions
to which it did not return emits. -/
def reconcileActiveClients (resubscribed : String → Bool) (clientId : String) (m : σ) :
    List (ActionEnvelope A) :=
  (manager.releaseSessions resubscribed clientId m (manager.getSessionUris m)).2

end StateManager

end NexgileIde.AgentHost

/-!
## The reconnect request

The state of the server is what concerns one client. Between the request and the answer,
restores begin and settle and envelopes are recorded in any order.
-/
namespace NexgileIde.AgentHost

structure ReconnectParams where
  clientId : String
  lastSeenServerSeq : ℕ
  subscriptions : List String

/-- The only live connection of the client, with the envelopes sent on its transport. -/
structure ConnectedClient (A : Type) where
  clientId : String
  subscriptions : AList fun _ : String => ChannelSubscription
  sent : List (ActionEnvelope A)

/-- The variables of `_restoreReconnectSubscriptions`. -/
structure Restore where
  canReplay : Bool
  /-- The subscriptions whose restore has not begun. -/
  remaining : List String
  /-- The state channels that are being subscribed to. -/
  awaited : List String
  restoredUris : List String
  /-- The subscriptions to activate, as they then are. -/
  pendingSubscriptions : List ChannelSubscription
  missing : List String

/-- The answer to the request. The snapshots of the other kind of answer are left out. -/
inductive ReconnectResponse (A : Type)
  | replay (actions : List (ActionEnvelope A)) (missing : List String)
  | snapshot

inductive ReconnectPhase (A : Type)
  | disconnected
  | restoring (params : ReconnectParams) (restore : Restore)
  | answered (response : ReconnectResponse A)

structure ProtocolServer (A : Type) where
  replayBuffer : List (ActionEnvelope A)
  client : Option (ConnectedClient A)
  /-- The channels for which the client never got a state from this process. -/
  baselineDebt : List String
  phase : ReconnectPhase A

variable {σ A : Type}

/-- `_isRelevantToClient` -/
def isRelevantToClient (names : ChannelNames) (client : ConnectedClient A)
    (envelope : ActionEnvelope A) : Bool :=
  if ((client.subscriptions.lookup envelope.channel).bind ChannelSubscription.activeUri).isSome then
    true
  else isActionEnvelopeRelevantToSubscriptionUris names envelope
    (client.subscriptions.entries.filterMap fun entry => entry.2.activeUri)

namespace ProtocolServer

def initial (baselineDebt : List String) : ProtocolServer A :=
  ⟨[], none, baselineDebt, .disconnected⟩

section

variable (names : ChannelNames)

def broadcastAction (server : ProtocolServer A) (envelope : ActionEnvelope A) :
    ProtocolServer A :=
  { server with
    client := server.client.map fun client =>
      if isRelevantToClient names client envelope then
        { client with sent := client.sent ++ [envelope] }
      else client }

def recordAndBroadcastAction (server : ProtocolServer A) (envelope : ActionEnvelope A) :
    ProtocolServer A :=
  let replayBuffer := server.replayBuffer ++ [envelope]
  let replayBuffer :=
    if replayBuffer.length > REPLAY_BUFFER_CAPACITY then replayBuffer.tail else replayBuffer
  { server with replayBuffer }.broadcastAction names envelope

def hasBaselineDebt (server : ProtocolServer A) (subscriptions : List String) : Bool :=
  subscriptions.any fun subscription =>
    match classifyChannel names subscription with
    | none => false
    | some classified => server.baselineDebt.contains classified.uri

/-- `_handleReconnect`, up to the restores. The number of the last envelope is that of the
state manager. -/
def handleReconnect (server : ProtocolServer A) (params : ReconnectParams) (serverSeq : ℕ) :
    ProtocolServer A :=
  let oldestBuffered :=
    match server.replayBuffer with
    | [] => serverSeq
    | oldest :: _ => oldest.serverSeq
  let canReplay := oldestBuffered ≤ params.lastSeenServerSeq &&
    !server.hasBaselineDebt names params.subscriptions
  { server with
    client := some ⟨params.clientId, ∅, []⟩
    phase := .restoring params ⟨canReplay, params.subscriptions, [], [], [], []⟩ }

end

def clearBaselineDebt (server : ProtocolServer A) (uri : String) : ProtocolServer A :=
  { server with baselineDebt := server.baselineDebt.filter (· ≠ uri) }

def setSubscription (client : ConnectedClient A) (subscription : ChannelSubscription) :
    ConnectedClient A :=
  { client with subscriptions := client.subscriptions.insert subscription.uri subscription }

/-- The restore of one subscription, up to where it waits. The two answers are those of the
configuration about a log emitter and of the agent service about a resource watch. -/
def beginRestore (names : ChannelNames) (server : ProtocolServer A) (client : ConnectedClient A)
    (params : ReconnectParams) (restore : Restore) (sub : String)
    (otlpLogEmitter watchParses : Bool) : ProtocolServer A :=
  match classifyChannel names sub with
  | none => { server with phase := .restoring params restore }
  | some classified =>
    if restore.restoredUris.contains classified.uri then
      { server with phase := .restoring params restore }
    else
      let restore := { restore with restoredUris := classified.uri :: restore.restoredUris }
      match classified with
      | .OtlpLogs .. =>
        { server with
          client := if otlpLogEmitter then setSubscription client classified else client
          phase := .restoring params restore }
      | .ResourceWatch .. =>
        if !watchParses then
          { server with
            phase := .restoring params { restore with missing := restore.missing ++ [sub] }
          }.clearBaselineDebt classified.uri
        else if restore.canReplay then
          { server with
            client := setSubscription client classified.pending
            phase := .restoring params { restore with
              pendingSubscriptions := restore.pendingSubscriptions ++ [classified] } }
        else
          { server with
            client := setSubscription client classified
            phase := .restoring params restore }
      | .State .. =>
        { server with
          client := setSubscription client classified.pending
          phase := .restoring params { restore with
            pendingSubscriptions := restore.pendingSubscriptions ++ [classified]
            awaited := sub :: restore.awaited } }

/-- A state channel was subscribed to, or that has failed. -/
def settleRestore (server : ProtocolServer A) (client : ConnectedClient A)
    (params : ReconnectParams) (restore : Restore) (sub : String) (restored : Bool) :
    ProtocolServer A :=
  let restore := { restore with awaited := restore.awaited.filter (· ≠ sub) }
  if restored then { server with phase := .restoring params restore }
  else
    { server with
      client := some
        (if client.subscriptions.lookup sub = some (ChannelSubscription.State sub false) then
          { client with subscriptions := client.subscriptions.erase sub }
        else client)
      phase := .restoring params { restore with missing := restore.missing ++ [sub] }
    }.clearBaselineDebt sub

/-- The loop that activates the subscriptions. -/
def activateSubscriptions (client : ConnectedClient A) (subscriptions : List ChannelSubscription) :
    ConnectedClient A :=
  subscriptions.foldl (fun client active =>
    if client.subscriptions.lookup active.uri = some active.pending then
      setSubscription client active
    else client) client

/-- Whether a connection holds a state subscription to a channel. -/
def isResubscribed (client : ConnectedClient A) (uri : String) : Bool :=
  (client.subscriptions.entries.filterMap fun entry => entry.2.stateUri).contains uri

/-- All restores have settled: the rest of `_restoreReconnectSubscriptions`. -/
def finishRestore (names : ChannelNames) (manager : StateManager σ A) (server : ProtocolServer A)
    (client : ConnectedClient A) (params : ReconnectParams) (restore : Restore) (m : σ) :
    ProtocolServer A :=
  let client := activateSubscriptions client restore.pendingSubscriptions
  let cleanup := manager.reconcileActiveClients (isResubscribed client) client.clientId m
  let server := cleanup.foldl (recordAndBroadcastAction names) { server with client := some client }
  if restore.canReplay then
    let actions := server.replayBuffer.filter fun envelope =>
      envelope.serverSeq > params.lastSeenServerSeq && isRelevantToClient names client envelope
    { server with phase := .answered (.replay actions restore.missing) }
  else { server with phase := .answered .snapshot }

end ProtocolServer

/-- What happens to the server. -/
inductive ServerEvent (σ A : Type)
  | record (envelope : ActionEnvelope A)
  | reconnect (params : ReconnectParams) (serverSeq : ℕ)
  | beginRestore (otlpLogEmitter watchParses : Bool)
  | settleRestore (sub : String) (restored : Bool)
  | finishRestore (m : σ)

namespace ProtocolServer

/-- One event, where `none` means that it cannot happen then. -/
def step (names : ChannelNames) (manager : StateManager σ A) (server : ProtocolServer A) :
    ServerEvent σ A → Option (ProtocolServer A)
  | .record envelope => some (server.recordAndBroadcastAction names envelope)
  | .reconnect params serverSeq =>
    match server.phase with
    | .disconnected => some (server.handleReconnect names params serverSeq)
    | _ => none
  | .beginRestore otlpLogEmitter watchParses =>
    match server.client, server.phase with
    | some client, .restoring params restore =>
      match restore.remaining with
      | [] => none
      | sub :: remaining =>
        some (server.beginRestore names client params { restore with remaining } sub otlpLogEmitter
          watchParses)
    | _, _ => none
  | .settleRestore sub restored =>
    match server.client, server.phase with
    | some client, .restoring params restore =>
      if restore.awaited.contains sub then
        some (server.settleRestore client params restore sub restored)
      else none
    | _, _ => none
  | .finishRestore m =>
    match server.client, server.phase with
    | some client, .restoring params restore =>
      if restore.remaining = [] ∧ restore.awaited = [] then
        some (server.finishRestore names manager client params restore m)
      else none
    | _, _ => none

def run (names : ChannelNames) (manager : StateManager σ A) (server : ProtocolServer A)
    (events : List (ServerEvent σ A)) : Option (ProtocolServer A) :=
  events.foldlM (step names manager) server

end ProtocolServer

end NexgileIde.AgentHost
