import NodeInventory.Client
import NodeInventory.Credentials.Identity
import NodeInventory.Filter.Basic
import NodeInventory.Filter.Codec
import NodeInventory.Filter.Parser
import NodeInventory.Https
import NodeInventory.Json.Basic
import NodeInventory.Json.Double
import NodeInventory.Json.Reader
import NodeInventory.Json.Written
import NodeInventory.Proofs.Filter.Cursor
import NodeInventory.Proofs.Filter.Derivation
import NodeInventory.Proofs.Filter.EncodedValue
import NodeInventory.Proofs.Filter.FaultPosition
import NodeInventory.Proofs.Filter.Grammar
import NodeInventory.Proofs.Filter.JsonText
import NodeInventory.Proofs.Filter.Printed
import NodeInventory.Proofs.Filter.Represented
import NodeInventory.Proofs.Filter.Spacing
import NodeInventory.Proofs.Json.Enclosed
import NodeInventory.Proofs.Json.Merge
import NodeInventory.Proofs.Json.Records
import NodeInventory.Proofs.Json.RoundTrip
import NodeInventory.Proofs.Listing.Records
import NodeInventory.Proofs.Listing.Resources
import NodeInventory.Proofs.Listing.Selection
import NodeInventory.Proofs.Listing.Tables
import NodeInventory.Proofs.Listing.Types
import NodeInventory.Proofs.Paging.Offset
import NodeInventory.Proofs.Paging.Run
import NodeInventory.Proofs.Paging.Window
import NodeInventory.Proofs.Query.Compiled
import NodeInventory.Proofs.Query.Meaning
import NodeInventory.Proofs.Query.Text
import NodeInventory.Proofs.Request.Deactivation
import NodeInventory.Proofs.Request.Path
import NodeInventory.Proofs.Tables.Grouping
import NodeInventory.Proofs.Tables.HostByHost
import NodeInventory.Proofs.Tables.Inventory
import NodeInventory.Proofs.Text.BytePosition
import NodeInventory.Proofs.Text.Percent
import NodeInventory.Proofs.Text.Utf8
import NodeInventory.Protocol
import NodeInventory.Query
import NodeInventory.Settings
import NodeInventory.Text
import NodeInventory.Toml.Reader
import NodeInventory.Toml.Scalar
