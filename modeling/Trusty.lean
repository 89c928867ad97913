import Trusty.Lib.Slots
import Trusty.Lib.OptionSpec
import Trusty.Lib.Mailbox
import Trusty.Lib.Trace
import Trusty.Lib.Bitmap
import Trusty.Lib.Ranges
import Trusty.Lib.Ring
import Trusty.BlockTree.Node
import Trusty.BlockTree.Walk
import Trusty.BlockTree.Insert
import Trusty.BlockTree.Remove
import Trusty.BlockTree.Shape
import Trusty.BlockTree.Valid
import Trusty.BlockTree.Position
import Trusty.BlockTree.WalkSpec
import Trusty.BlockTree.NodeSpec
import Trusty.BlockTree.PutSpec
import Trusty.BlockTree.Chain
import Trusty.BlockTree.Split
import Trusty.BlockTree.InsertSpec
import Trusty.BlockTree.Search
import Trusty.BlockTree.Around
import Trusty.BlockTree.MergeSpec
import Trusty.BlockTree.RemoveSpec
import Trusty.BlockTree.FindSpec
import Trusty.BlockTree.RemoveLeaf
import Trusty.Memlog
import Trusty.LogRing
import Trusty.Storage.Path
import Trusty.Storage.Rpmb
import Trusty.Storage.Session
import Trusty.Storage.SessionSpec
import Trusty.Storage.FileTable
import Trusty.Storage.BlockSet
import Trusty.Storage.BlockAllocator
import Trusty.Storage.Client
import Trusty.Storage.ClientSpec
import Trusty.Storage.BlockDeviceTipc
import Trusty.Ipc.Iovec
import Trusty.Ipc.MsgQueue
import Trusty.Ipc.MsgQueueSpec
import Trusty.Ipc.Fifo
import Trusty.Ipc.HandleList
import Trusty.Ipc.Uctx
import Trusty.Virtio.Vqueue
import Trusty.Virtio.TipcDev
import Trusty.App.Manifest
import Trusty.Sm.StdCall
import Trusty.Sm.StdCallSpec
import Trusty.Sm.Driver
