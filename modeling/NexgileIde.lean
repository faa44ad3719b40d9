import NexgileIde.Edits.StringEdit
import NexgileIde.Edits.TextChange
import NexgileIde.Edits.StringEditRebase
import NexgileIde.Edits.EditStack
import NexgileIde.AgentHost.Changeset
import NexgileIde.AgentHost.ChangesetRun
import NexgileIde.AgentHost.SubscriptionRun
import NexgileIde.UserDataSync.MergeSpec
import NexgileIde.UserDataSync.ProfilesManifest
import NexgileIde.UserDataSync.KeybindingsMergeSpec
import NexgileIde.UserDataSync.GlobalStateMerge
import NexgileIde.ViewLayout.VerticalOffset
import NexgileIde.Chat.MutationLogRun
import NexgileIde.Ipc.ChannelMessages
import NexgileIde.ContextKey.ContextKeyImplies
import NexgileIde.Keybinding.KeybindingResolverRun
import NexgileIde.SearchTree.SearchTreeRun
import NexgileIde.SearchTree.UriKeys
import NexgileIde.Files.EventCoalescer
import NexgileIde.MergeEditor.AcceptedRanges
import NexgileIde.Text.Utf8Decoder
import NexgileIde.Sse.SseParser
import NexgileIde.InlineEdits.ResponseProcessor
import NexgileIde.AgentHost.ReconnectRun
import NexgileIde.Ranges.LineRangeSetSpec
import NexgileIde.Edits.SequentialReplacements
import NexgileIde.Edits.RangeTracking
import NexgileIde.Edits.AnnotatedStringEdit
import NexgileIde.Edits.TextEditMapping
import NexgileIde.Edits.LineEditText
import NexgileIde.InlineEdits.SharedEdits
import NexgileIde.PrefixSum.ConstantTimeSpec
import NexgileIde.BracketPairs.Concat23Trees
import NexgileIde.BracketPairs.BeforeEditPositionMapper
import NexgileIde.BracketPairs.CombineTextEditInfos
import NexgileIde.PieceTree.ValueInRange
import NexgileIde.Tree.VisibleChildrenRun
import NexgileIde.SearchTree.StaleNodes
import NexgileIde.SearchTree.Superstrings
import NexgileIde.Caches.CacheRun
import NexgileIde.Diff.SequenceOptimizations
import NexgileIde.Diff.RangeMapping
import NexgileIde.Tokens.AnnotationsEdit
import NexgileIde.Tokens.SetPartial
import NexgileIde.SearchTree.LevelOrder
import NexgileIde.ListView.RangeMap
import NexgileIde.ApplyPatch.FindContext
import NexgileIde.Edits.StreamingEdits
import NexgileIde.Completions.RecentEdits
import NexgileIde.ViewLayout.LineProjection
import NexgileIde.ViewLayout.NormalizedPositions
import NexgileIde.InlineEdits.DocumentEditHistory
import NexgileIde.InlineEdits.NesHistory
