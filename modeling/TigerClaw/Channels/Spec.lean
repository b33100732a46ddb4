import TigerClaw.Basic

/-!
# Inbound messages

`src/channels/spec.zig`: what a channel adapter hands to the dispatch layer.
-/

namespace TigerClaw
namespace Channels

inductive ChannelId where
  | telegram
  deriving DecidableEq

structure InboundMessage where
  upstreamId : UInt64
  channelId : ChannelId := .telegram
  /-- Stamped by the channel manager. -/
  agentName : Bytes := []
  conversationKey : Bytes
  threadKey : Option Bytes := none
  senderId : Bytes
  text : Bytes
  deriving DecidableEq

inductive ReceiveError where
  | unauthorized
  | transportFailure

end Channels
end TigerClaw
