import TcpDpdk.Agreement
import TcpDpdk.Buffers
import TcpDpdk.Checksum
import TcpDpdk.Cli
import TcpDpdk.CliProcess
import TcpDpdk.Config
import TcpDpdk.ControlPanel
import TcpDpdk.Delivery
import TcpDpdk.Dispatch
import TcpDpdk.Exchange
import TcpDpdk.FinWait
import TcpDpdk.Framing
import TcpDpdk.Headers
import TcpDpdk.Keys
import TcpDpdk.Opening
import TcpDpdk.Order
import TcpDpdk.Ownership
import TcpDpdk.PassiveOpen
import TcpDpdk.Payload
import TcpDpdk.RoundTrip
import TcpDpdk.Numbering
import TcpDpdk.Operands
import TcpDpdk.SendSpace
import TcpDpdk.WholeLines
import TcpDpdk.Window
import TcpDpdk.Survival
import TcpDpdk.Flows
import TcpDpdk.Session
import TcpDpdk.Program
import TcpDpdk.Shutdown
import TcpDpdk.Addresses
import TcpDpdk.Ipv6
import TcpDpdk.Unset
import TcpDpdk.Lives
import TcpDpdk.Descriptors
import TcpDpdk.Startup
import TcpDpdk.Pair
